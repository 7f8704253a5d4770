import Tori.Spec.Vmem

/-! Kernel virtual ranges are disjoint, unless a size or the top of the direct map wraps when it is rounded up. -/

namespace Tori.Vmem

open Word

variable {hhdmTop size : ℕ} {sizes : List ℕ} {s : State} {c : Call}

theorem alignUp_page (x : ℕ) : alignUp x pageSize = (x + 4095) % 2 ^ 64 / 4096 * 4096 := alignUp_eq x 12 (by decide)

/-- What holds between calls. -/
inductive Bumped (hhdmTop : ℕ) : State → Prop
  | empty : Bumped hhdmTop ⟨0, 0⟩
  | room {x : ℕ} (haligned : x % 4096 = 0) (hend : x ≤ kernelImageStart)
      (habove : hhdmTop ≤ 2 ^ 64 - pageSize → pageAbove hhdmTop ≤ x) : Bumped hhdmTop ⟨x, kernelImageStart⟩

theorem bumped_init (hhdmTop : ℕ) : Bumped hhdmTop (initVmemRanges hhdmTop) := by
  unfold initVmemRanges
  dsimp only
  split_ifs with hfull
  · exact .empty
  · rw [alignUp_page] at hfull ⊢
    refine .room (Nat.mul_mod_left _ _) (by omega) fun htop => ?_
    unfold pageAbove
    unfold pageSize at htop ⊢
    omega

theorem allocVmemRange_empty (size : ℕ) : allocVmemRange size ⟨0, 0⟩ = (0, ⟨0, 0⟩) := by
  unfold allocVmemRange
  split_ifs with h0 hfull
  · rfl
  · rfl
  · exact absurd (Nat.zero_le 0) hfull

/-- What a call does to a range that is not empty. -/
inductive Effect (x size : ℕ) : ℕ × State → Prop
  | refused (h : size = 0 ∨ kernelImageStart ≤ x ∨ size ≤ 2 ^ 64 - 4096 ∧ kernelImageStart < x + size) :
      Effect x size (0, ⟨x, kernelImageStart⟩)
  | served {y : ℕ} (hsize : size ≤ 2 ^ 64 - 4096) (hpos : 0 < size) (haligned : y % 4096 = 0) (hroom : x + size ≤ y)
      (hend : y ≤ kernelImageStart) : Effect x size (x, ⟨y, kernelImageStart⟩)
  | wrapped (hsize : 2 ^ 64 - 4096 < size) (hx : x < kernelImageStart) : Effect x size (x, ⟨x, kernelImageStart⟩)

theorem allocVmemRange_effect {x : ℕ} (hx : x % 4096 = 0) (hsize : size < 2 ^ 64) :
    Effect x size (allocVmemRange size ⟨x, kernelImageStart⟩) := by
  have hkernel : kernelImageStart = 18446744071562067968 := rfl
  unfold allocVmemRange
  rw [alignUp_page]
  unfold u64
  dsimp only
  split_ifs with h0 hfull hroom
  · exact .refused (.inl h0)
  · exact .refused (.inr (.inl hfull))
  · exact .refused (.inr (.inr ⟨by omega, by omega⟩))
  · by_cases hwrap : 2 ^ 64 - 4096 < size
    · rw [show (x + (size + 4095) % 2 ^ 64 / 4096 * 4096) % 2 ^ 64 = x by omega]
      exact .wrapped hwrap (by omega)
    · exact .served (by omega) (by omega) (by omega) (by omega) (by omega)

section

variable (h : Bumped hhdmTop s)
include h

theorem Bumped.alloc (hsize : size < 2 ^ 64) :
    Bumped hhdmTop (allocVmemRange size s).2 ∧ s.vmemCurrent ≤ (allocVmemRange size s).2.vmemCurrent := by
  cases h with
  | empty =>
    rw [allocVmemRange_empty]
    exact ⟨.empty, le_rfl⟩
  | room haligned hend habove =>
    have heffect := allocVmemRange_effect haligned hsize
    generalize allocVmemRange size _ = out at heffect ⊢
    cases heffect with
    | refused => exact ⟨.room haligned hend habove, le_rfl⟩
    | @served y _ _ hy hroom hend' => exact ⟨.room hy hend' fun htop => (habove htop).trans (by omega), by simp; omega⟩
    | wrapped => exact ⟨.room haligned hend habove, le_rfl⟩

theorem Bumped.result (hsize : size < 2 ^ 64) (hne : (allocVmemRange size s).1 ≠ 0) :
    (allocVmemRange size s).1 = s.vmemCurrent := by
  cases h with
  | empty =>
    rw [allocVmemRange_empty] at hne
    exact absurd rfl hne
  | room haligned hend habove =>
    have heffect := allocVmemRange_effect haligned hsize
    generalize allocVmemRange size _ = out at heffect hne ⊢
    cases heffect with
    | refused => exact absurd rfl hne
    | served => rfl
    | wrapped => rfl

/-- One call: its range exists exactly where nothing wraps. -/
theorem Bumped.inside_iff (hsize : size < 2 ^ 64) :
    ((allocVmemRange size s).1 ≠ 0 → Call.Inside hhdmTop ⟨s, size, (allocVmemRange size s).1⟩) ↔
      Call.Rounds hhdmTop ⟨s, size, (allocVmemRange size s).1⟩ := by
  have hkernel : kernelImageStart = 18446744071562067968 := rfl
  cases h with
  | empty =>
    rw [allocVmemRange_empty]
    exact iff_of_true (fun hne => absurd rfl hne) (.inr (.inl rfl))
  | @room x haligned hend habove =>
    have heffect := allocVmemRange_effect haligned hsize
    generalize allocVmemRange size _ = out at heffect ⊢
    unfold Call.Rounds
    cases heffect with
    | refused hrefused =>
      refine iff_of_true (fun hne => absurd rfl hne) ?_
      rcases hrefused with h0 | hfull | ⟨hle, hroom⟩
      · exact .inl h0
      · exact .inr (.inr (.inl hfull))
      · exact .inr (.inr (.inr ⟨hle, .inr hroom⟩))
    | served hle hpos hy hroom hend' =>
      constructor
      · intro hinside
        by_cases hx : x = 0
        · exact .inr (.inl hx)
        · have habove' := (hinside hx).above
          refine .inr (.inr (.inr ⟨hle, .inl ?_⟩))
          dsimp only at habove'
          unfold pageAbove at habove'
          unfold pageSize at habove' ⊢
          omega
      · rintro (h0 | h0 | hfull | ⟨-, htop | hfull⟩) hne
        · exact absurd h0 hpos.ne'
        · exact absurd h0 hne
        · dsimp only at hfull
          omega
        · exact ⟨haligned, by dsimp only; omega, habove htop, by dsimp only; omega⟩
        · dsimp only at hfull
          omega
    | wrapped hwrap hx =>
      constructor
      · intro hinside
        by_cases hzero : x = 0
        · exact .inr (.inl hzero)
        · have := (hinside hzero).fits
          dsimp only at this
          omega
      · rintro (h0 | h0 | hfull | ⟨hle, -⟩) hne
        · dsimp only at h0
          omega
        · exact absurd h0 hne
        · exact absurd hfull (not_le.mpr hx)
        · exact absurd hle (not_le.mpr hwrap)

theorem mem_calls (hsizes : ∀ size ∈ sizes, size < 2 ^ 64) (hc : c ∈ calls sizes s) :
    Bumped hhdmTop c.pre ∧ c.size < 2 ^ 64 ∧ c.result = (allocVmemRange c.size c.pre).1 ∧
      s.vmemCurrent ≤ c.pre.vmemCurrent := by
  induction sizes generalizing s with
  | nil => cases hc
  | cons size sizes ih =>
    have hsize := hsizes size List.mem_cons_self
    rcases List.mem_cons.mp hc with rfl | hc
    · exact ⟨h, hsize, rfl, le_rfl⟩
    · obtain ⟨hnext, hle⟩ := h.alloc hsize
      obtain ⟨hpre, hlt, hresult, hge⟩ := ih hnext (fun x hx => hsizes x (List.mem_cons_of_mem _ hx)) hc
      exact ⟨hpre, hlt, hresult, hle.trans hge⟩

/-- A range that exists ends where the next one may begin. -/
theorem Bumped.end_le (hsize : size < 2 ^ 64) (hne : (allocVmemRange size s).1 ≠ 0)
    (hinside : Call.Inside hhdmTop ⟨s, size, (allocVmemRange size s).1⟩) :
    (allocVmemRange size s).1 + size ≤ (allocVmemRange size s).2.vmemCurrent := by
  cases h with
  | empty =>
    rw [allocVmemRange_empty] at hne
    exact absurd rfl hne
  | @room x haligned hend habove =>
    have heffect := allocVmemRange_effect haligned hsize
    generalize allocVmemRange size _ = out at heffect hinside hne ⊢
    cases heffect with
    | refused => exact absurd rfl hne
    | served _ _ _ hroom => exact hroom
    | wrapped hwrap =>
      have hfits := hinside.fits
      dsimp only at hfits
      omega

theorem apart_of_inside (hsizes : ∀ size ∈ sizes, size < 2 ^ 64)
    (hinside : ∀ c ∈ calls sizes s, c.result ≠ 0 → c.Inside hhdmTop) :
    (calls sizes s).Pairwise fun c d => c.result ≠ 0 → d.result ≠ 0 → c.Apart d := by
  induction sizes generalizing s with
  | nil => exact .nil
  | cons size sizes ih =>
    have hsize := hsizes size List.mem_cons_self
    have hrest : ∀ x ∈ sizes, x < 2 ^ 64 := fun x hx => hsizes x (List.mem_cons_of_mem _ hx)
    obtain ⟨hnext, -⟩ := h.alloc hsize
    refine .cons ?_ (ih hnext hrest fun c hc => hinside c (List.mem_cons_of_mem _ hc))
    intro d hd hc hdne
    obtain ⟨hpre, hlt, hresult, hge⟩ := mem_calls hnext hrest hd
    have hend := h.end_le hsize hc (hinside _ List.mem_cons_self hc)
    rw [hresult] at hdne
    exact .inl (hend.trans (hge.trans (by rw [hresult, hpre.result hlt hdne])))

end

/-- The ranges handed out exist and are disjoint exactly where no rounding wraps. -/
theorem ranges_iff (hsizes : ∀ size ∈ sizes, size < 2 ^ 64) :
    Ranges hhdmTop (calls sizes (initVmemRanges hhdmTop)) ↔
      ∀ c ∈ calls sizes (initVmemRanges hhdmTop), c.Rounds hhdmTop := by
  have hpoint : ∀ c ∈ calls sizes (initVmemRanges hhdmTop), (c.result ≠ 0 → c.Inside hhdmTop) ↔ c.Rounds hhdmTop := by
    intro c hc
    obtain ⟨hpre, hlt, hresult, -⟩ := mem_calls (bumped_init hhdmTop) hsizes hc
    have h := hpre.inside_iff hlt
    rwa [← hresult] at h
  constructor
  · intro h c hc
    exact (hpoint c hc).mp (h.inside c hc)
  · intro h
    have hinside := fun c hc => (hpoint c hc).mpr (h c hc)
    exact ⟨hinside, apart_of_inside (bumped_init hhdmTop) hsizes hinside⟩

/-- Two calls after a direct map that ends at `0xFFFF800100000000`. -/
theorem ranges_two : Ranges 0xFFFF800100000000 (calls [5000, 16] (initVmemRanges 0xFFFF800100000000)) := by
  refine (ranges_iff (by decide)).mpr fun c hc => .inr (.inr (.inr ⟨?_, .inl (by decide)⟩))
  have hsize : c.size = 5000 ∨ c.size = 16 := by
    simpa [calls, or_imp] using List.mem_map_of_mem hc
  unfold pageSize
  omega

/-- A size of `2 ^ 64 - 1` is rounded to 0: the call succeeds and reserves nothing. -/
theorem wrapped_size_succeeds :
    (calls [2 ^ 64 - 1, 4096] (initVmemRanges 0xFFFF800100000000)).map Call.result =
      [0xFFFF800100000000, 0xFFFF800100000000] ∧
    ¬Ranges 0xFFFF800100000000 (calls [2 ^ 64 - 1, 4096] (initVmemRanges 0xFFFF800100000000)) := by
  have hresults : (calls [2 ^ 64 - 1, 4096] (initVmemRanges 0xFFFF800100000000)).map Call.result =
      [0xFFFF800100000000, 0xFFFF800100000000] := by
    decide +kernel
  refine ⟨hresults, fun h => ?_⟩
  have hfirst := (List.cons.inj hresults).1
  have hfits := (h.inside _ List.mem_cons_self (by rw [hfirst]; decide)).fits
  rw [hfirst] at hfits
  exact absurd hfits (by decide)

end Tori.Vmem
