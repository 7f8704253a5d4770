import Tori.Proofs.VmmMap
import Tori.Proofs.PmmInvariant

/-! Frame accounting over whole runs: what the page allocator counts is what the live page
tables hold, and freeing every space restores the allocator. -/

namespace Tori.Vmm

open Loop Pmm Radix

variable {w : World} {p : ℕ} {s : Sys}

/-! ### User writes -/

section Store

variable {base : ℕ → Bool × ℕ} {w w' : World} {live : Finset ℕ} {p va : ℕ} {b : BitVec 8}

section

variable (h : Inv base w live) (hp : p ∈ live)
include h hp

theorem Inv.mapped {e : Entry} (hl : lookup w.mem p va = some e) :
    has e ptePresent = true ∧ 0 < leaves w.mem live (addrOf e / 4096) ∧
      tables w.mem live (addrOf e / 4096) = 0 ∧ isPageUsed w.pmm (addrOf e / 4096) = true := by
  obtain ⟨hleaf, hP⟩ := Option.filter_eq_some_iff.1 hl
  have h1 : refs (addrOf e / 4096) e ≤ cnt (refs (addrOf e / 4096)) (tree w.mem p) := leafAt_le _ hleaf
  have h2 : cnt (refs (addrOf e / 4096)) (tree w.mem p) ≤ leaves w.mem live (addrOf e / 4096) :=
    cnt_le_leaves hp
  rw [refs_present hP, if_pos rfl] at h1
  have h3 := h.apart (addrOf e / 4096)
  exact ⟨hP, by omega, by omega, (h.used_iff _).2 (.inl (by omega))⟩

theorem Inv.walk_eq (hva : pml4Idx va < 256) :
    walk w.mem p va = (lookup w.mem p va).map fun e => ⟨addrOf e + va % 4096, has e pteWritable, has e pteUser⟩ := by
  have hf := h.frame hp
  have hwalk := Vmm.walk_eq (by rw [hf]; exact h.ok p hp) hva
  rwa [hf] at hwalk

theorem Inv.tryWrite (hva : pml4Idx va < 256) (hcall : tryWrite p va b w = some w') :
    ∃ e, lookup w.mem p va = some e ∧ has e pteWritable = true ∧ has e pteUser = true ∧
      w' = { w with mem := w.mem.store8 (addrOf e + va % 4096) b } := by
  unfold Vmm.tryWrite at hcall
  rw [h.walk_eq hp hva] at hcall
  cases hl : lookup w.mem p va with
  | none => simp [hl] at hcall
  | some e =>
    simp only [hl, Option.map_some] at hcall
    split_ifs at hcall with hwu
    rw [Bool.and_eq_true] at hwu
    exact ⟨e, rfl, hwu.1, hwu.2, (Option.some.inj hcall).symm⟩

end

theorem Inv.store (h : Inv base w live) {x : ℕ} (hx : tables w.mem live (x / 4096) = 0) :
    Inv base { w with mem := w.mem.store8 x b } live ∧
      ∀ p ∈ live, tree (w.mem.store8 x b) p = tree w.mem p := by
  refine h.congr (fun g hg => ?_) h.taken h.pages
  exact rd_congr fun y hy => Function.update_of_ne (by rintro rfl; rw [hy] at hx; omega) _ _

theorem userWrite_cases (hcall : userWrite p va b w = some w') :
    ∃ w₁, (w₁ = w ∨ handleCowFault va 7 p w = (true, w₁)) ∧ tryWrite p va b w₁ = some w' := by
  unfold userWrite at hcall
  cases ht : tryWrite p va b w with
  | some w₁ =>
    rw [ht] at hcall
    exact ⟨w, .inl rfl, ht.trans hcall⟩
  | none =>
    simp only [ht] at hcall
    split_ifs at hcall
    split at hcall
    · rename_i w₁ hf
      exact ⟨w₁, .inr hf, hcall⟩
    · exact absurd hcall (by simp)

end Store

/-! ### Faults -/

section Fault

variable {base : ℕ → Bool × ℕ} {w w' : World} {live : Finset ℕ} {p va err : ℕ} {b : Bool}

theorem Inv.fault (h : Inv base w live) (hb : IsBase base) (hp : p ∈ live) (hva : pml4Idx va < 256)
    (hcall : handleCowFault va err p w = (b, w')) :
    (b = false ∧ w' = w) ∨ (b = true ∧ Inv base w' live ∧ ∃ e e', Resolved live w w' p va e e') := by
  rcases h.handleCowFault_cases hb hp hva err with ⟨-, hc⟩ | ⟨s, hs, hc⟩
  · rw [hcall] at hc
    exact .inl (Prod.mk.inj hc)
  · rw [hcall] at hc
    rcases hs.handleCowLeaf hb hc.symm with ⟨h1, h2, -⟩ | h1
    · exact .inl ⟨h1, h2⟩
    · exact .inr h1

/-- A fault that is not resolved changes nothing, at any address. -/
theorem handleCowFault_false (hcall : handleCowFault va err p w = (false, w')) : w' = w := by
  have hleaf : ∀ pt i w', handleCowLeaf pt i w = (false, w') → w' = w := by
    intro pt i w' hc
    unfold handleCowLeaf at hc
    dsimp only at hc
    split_ifs at hc with h1 h2 h3
    · exact (Prod.mk.inj hc).2.symm
    · exact absurd (Prod.mk.inj hc).1 (by decide)
    · have hfail : (allocPage w.pmm).2 = w.pmm := allocPages_fail (Prod.ext h3 rfl)
      rw [hfail] at hc
      exact (Prod.mk.inj hc).2.symm
    · exact absurd (Prod.mk.inj hc).1 (by decide)
  unfold handleCowFault at hcall
  dsimp only at hcall
  split_ifs at hcall
  all_goals first
    | exact (Prod.mk.inj hcall).2.symm
    | exact hleaf _ _ _ hcall

end Fault

/-! ### Mappings -/

theorem Inv.walk_none {base : ℕ → Bool × ℕ} {live : Finset ℕ} {va : ℕ}
    (h : Inv base w live) (hp : p ∈ live) (hva : pml4Idx va < 256) (hun : walk w.mem p va = none) :
    lookup w.mem p va = none := by
  rw [h.walk_eq hp hva] at hun
  exact Option.map_eq_none_iff.1 hun

theorem filled {phys : ℕ} {pmm : State} (halloc : allocPage w.pmm = (phys, pmm))
    (hok : phys ≠ invalidPhysicalAddress) (content : ℕ → BitVec 8) :
    ∃ F, phys = F * 4096 ∧
      Allocated w { w with pmm := pmm, mem := fillPage phys content w.mem } F ∧
      ∀ x, x / 4096 = F → fillPage phys content w.mem x = content (x % 4096) := by
  obtain ⟨F, rfl, ha⟩ := allocated halloc hok
  have hdiv : F * 4096 / 4096 = F := Nat.mul_div_cancel _ (by decide)
  refine ⟨F, rfl, ⟨ha.lt, ha.free, ha.pmm, fun x hx => ?_, rfl⟩, fun x hx => ?_⟩
  · exact if_neg (by rw [hdiv]; exact hx)
  · exact if_pos (by rw [hdiv]; exact hx)

/-! ### Runs -/

/-- A fault in the kernel half may be reported, but must not be resolved. -/
def faultsInUserHalf (s : Sys) : Action → Prop
  | .fault pml4 va err => pml4Idx va < 256 ∨ (handleCowFault va err pml4 s.world).1 = false
  | _ => True

theorem Inv.step {base : ℕ → Bool × ℕ} (hb : IsBase base) {s' : Sys} {a : Action}
    (h : Inv base s.world s.live) (ha : faultsInUserHalf s a) (hstep : Step s a s')
    (hbound : ∀ q, leaves s'.world.mem s'.live q ≤ uint16Max) : Inv base s'.world s'.live := by
  cases hstep with
  | create hcall hok =>
    obtain ⟨f', -, hinv, -⟩ := h.create hcall hok
    exact hinv
  | map hlive hva hun hpresent halloc hok hcall =>
    obtain ⟨F, rfl, ha, -⟩ := filled halloc hok _
    exact (h.mapFresh hb hlive hva (h.walk_none hlive (pml4Idx_user hva) hun) ha hpresent hcall).1
  | clone hlive hcall hok =>
    obtain ⟨hroot, heff⟩ := h.cloneEffect hb hlive hcall hok
    exact h.clone hlive hroot heff hbound
  | @write w w' live ref p va b pg hlive hva hpg hwr hcall =>
    obtain ⟨w₁, hw₁, htry⟩ := userWrite_cases hcall
    have h₁ : Inv base w₁ live := by
      rcases hw₁ with rfl | hf
      · exact h
      · rcases h.fault hb hlive (pml4Idx_user hva) hf with ⟨hc, -⟩ | ⟨-, hinv, -⟩
        · exact absurd hc (by decide)
        · exact hinv
    obtain ⟨e, hl, -, -, rfl⟩ := h₁.tryWrite hlive (pml4Idx_user hva) htry
    refine (h₁.store ?_).1
    have hmod := addrOf_mod e
    rw [show (addrOf e + va % 4096) / 4096 = addrOf e / 4096 by omega]
    exact (h₁.mapped hlive hl).2.2.1
  | @fault w w' live ref p va err ok hlive hcall =>
    rcases ha with hva | hfalse
    · rcases h.fault hb hlive hva hcall with ⟨-, rfl⟩ | ⟨-, hinv, -⟩
      · exact h
      · exact hinv
    · rw [hcall] at hfalse
      cases hfalse
      rw [handleCowFault_false hcall]
      exact h
  | free hlive => exact (h.free hb hlive).2

theorem isBase_of_start (h : Start s) : IsBase (pageState s.world.pmm) := by
  obtain ⟨-, bootInfo, c, hrun, hpmm⟩ := h
  rw [hpmm]
  exact ⟨fun q hq => hrun.free_page hq, ((tracks_run hrun).reserved 0 (zero_reserved bootInfo)).1⟩

theorem inv_of_start (h : Start s) : Inv (pageState s.world.pmm) s.world s.live := by
  obtain ⟨hlive, -⟩ := h
  rw [hlive]
  exact ⟨fun p hp => absurd hp (Finset.notMem_empty p), fun p hp => absurd hp (Finset.notMem_empty p),
    fun q => Nat.zero_le _, fun q _ => rfl, fun q hq => absurd hq (by simp [tables, leaves]), fun q => rfl⟩

theorem inv_of_run {s₀ : Sys} (h₀ : Start s₀) {allowed : Sys → Action → Prop}
    (hallowed : ∀ s a, allowed s a → faultsInUserHalf s a) (h : Run allowed s₀ s) :
    Inv (pageState s₀.world.pmm) s.world s.live := by
  induction h with
  | start => exact inv_of_start h₀
  | step _ ha hstep hbound ih => exact ih.step (isBase_of_start h₀) (hallowed _ _ ha) hstep hbound

def smallBoot : BootInfo :=
  { regions := [⟨0, 0x10000, .usable⟩], kernelPhysicalBase := 0, kernelPhysicalSize := 0 }

def smallStart : Sys := ⟨⟨Pmm.init smallBoot, fun _ => 0, 0x100000⟩, ∅, fun _ _ => none⟩

theorem start_small : Start smallStart := ⟨rfl, smallBoot, _, .init, rfl⟩

/-- The page allocator of the small machine after `n` pages. -/
def pagesTaken : ℕ → State
  | 0 => smallStart.world.pmm
  | n + 1 => (allocPage (pagesTaken n)).2

theorem pagesTaken_next {n : ℕ} (hn : n < 5) : allocPage (pagesTaken n) = ((n + 1) * 4096, pagesTaken (n + 1)) := by
  refine Prod.ext ?_ rfl
  interval_cases n <;> decide +kernel

theorem smallStart_blank : smallStart.world = ⟨pagesTaken 0, fun _ => 0, 0x100 * 4096⟩ := by
  simp only [pagesTaken, smallStart, Nat.reduceMul]

theorem run_create {s₀ : Sys} (h₀ : Start s₀) (allowed : Sys → Action → Prop)
    (hallowed : allowed s₀ .create) (hp : (createUserPml4 s₀.world).1 = p) (h0 : p ≠ 0) :
    Run allowed s₀ ⟨(createUserPml4 s₀.world).2, insert p s₀.live, Function.update s₀.ref p fun _ => none⟩ := by
  refine .step .start hallowed (.create (Prod.ext hp rfl) h0) fun q => ?_
  obtain ⟨f', -, -, -, hleaves, -⟩ := (inv_of_start h₀).create (Prod.ext hp rfl) h0
  rw [hleaves, h₀.1]
  exact Nat.zero_le _

end Tori.Vmm
