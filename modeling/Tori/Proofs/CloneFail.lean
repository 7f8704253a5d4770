import Tori.Proofs.CowRefinement
import Tori.Proofs.PmmPages

/-! A `clone_address_space` that fails. Each level of `clone_table` gives back its own table only, so what is complete
below it stays allocated and keeps its references. -/

namespace Tori.Vmm

open Loop Pmm Radix Function

variable {w₀ w w' : World} {src dst : PTree} {d f f' k : ℕ}

variable {s : State} {q r n : ℕ} {m : Mem} {i : Fin 512}

/-! ### Counting free pages -/

theorem freePages_eq (s : State) :
    freePages s = ∑ q ∈ Finset.range maxManagedPages, if isPageUsed s q = false then 1 else 0 :=
  Finset.card_filter _ _

theorem Cloned.used_eq (h : Cloned w₀ w src dst) (q : ℕ) :
    isPageUsed w.pmm q = if 0 < own q dst then true else isPageUsed w₀.pmm q := by
  have hstate := congrArg Prod.fst (h.pmm q)
  change isPageUsed w.pmm q = _ at hstate
  rw [hstate]
  split_ifs
  · rfl
  · exact retain_iter_used _ _

theorem Cloned.freePages (h : Cloned w₀ w src dst) : freePages w.pmm + size src = freePages w₀.pmm := by
  rw [← h.copy.size, ← sum_own fun g hg => (h.fresh g hg).1, freePages_eq, freePages_eq, ← Finset.sum_add_distrib]
  refine Finset.sum_congr rfl fun q _ => ?_
  rw [h.used_eq q]
  by_cases hq : 0 < own q dst
  · have hone := h.uniq q
    rw [if_pos hq, (h.fresh q hq).2, if_pos rfl, if_neg (by decide)]
    omega
  · rw [if_neg hq, Nat.eq_zero_of_not_pos hq, Nat.add_zero]

theorem freePages_of_fail (h : (allocPage s).1 = invalidPhysicalAddress) : freePages s = 0 := by
  refine Finset.card_eq_zero.mpr (Finset.filter_eq_empty_iff.mpr fun q hq hfree => ?_)
  have hlt := Finset.mem_range.mp hq
  have hrun : FreeRun s q 1 := ⟨hlt, fun i h1 h2 => by rwa [show i = q by omega]⟩
  obtain ⟨offset, -, haddr, ⟨hle, -⟩, -⟩ := allocPages_first_run one_ne_zero ⟨q, hrun⟩
  rw [show allocPage s = allocPages 1 s from rfl, haddr] at h
  exact address_valid h

theorem Cloned.isBase (h : Cloned w₀ w src dst) (hbase : IsBase (pageState w₀.pmm)) : IsBase (pageState w.pmm) := by
  refine ⟨fun q hq => ?_, ?_⟩
  · have hused : isPageUsed w.pmm q = false := hq
    rw [h.used_eq q] at hused
    split_ifs at hused with hown
    obtain ⟨hzero, hlt⟩ := hbase.free q hused
    refine ⟨?_, hlt⟩
    rw [h.pmm q, if_neg hown, hzero]
    exact iterate_fixed rfl _
  · exact h.used (.inl hbase.zero)

/-! ### A failed `clone_table` -/

/-- A source leaf is as it was, or marked. -/
def Touched (e e' : Entry) : Prop := e' = e ∨ e' = markLeaf e

/-- What a failed clone of `t` leaves; `t'` is the source afterwards. -/
structure Failed (w₀ w : World) (t t' : PTree) : Prop where
  short : Vmm.freePages w₀.pmm < size t
  kept : ∀ q, isPageUsed w₀.pmm q = true →
    ∃ n ≤ cnt (refs q) t, pageState w.pmm q = retainState^[n] (pageState w₀.pmm q)
  clean : GivesBack t (Vmm.freePages w₀.pmm) → ∀ q, pageState w.pmm q = pageState w₀.pmm q
  leak : ¬GivesBack t (Vmm.freePages w₀.pmm) → ∃ q, isPageUsed w₀.pmm q = false ∧ isPageUsed w.pmm q = true
  mem : ∀ x, isPageUsed w₀.pmm (x / 4096) = true → own (x / 4096) t = 0 → w.mem x = w₀.mem x
  source : Leafwise Touched t t'

variable {t t' : PTree}

theorem InUse.refs_free (h : InUse s t) (hq : isPageUsed s q = false) : cnt (refs q) t = 0 := by
  by_contra hne
  rw [(h q (Nat.add_pos_right _ (Nat.pos_of_ne_zero hne))).2] at hq
  cases hq

theorem Failed.used (h : Failed w₀ w t t') (hq : isPageUsed w₀.pmm q = true) : isPageUsed w.pmm q = true := by
  obtain ⟨n, -, hstate⟩ := h.kept q hq
  have hused := congrArg Prod.fst hstate
  rw [retain_iter_used] at hused
  exact hused.trans hq

theorem Failed.other (h : Failed w₀ w t t') (hq : isPageUsed w₀.pmm q = true) (hrefs : cnt (refs q) t = 0) :
    pageState w.pmm q = pageState w₀.pmm q := by
  obtain ⟨n, hn, hstate⟩ := h.kept q hq
  rw [hrefs] at hn
  obtain rfl := Nat.le_zero.mp hn
  exact hstate

theorem Failed.rd_same (h : Failed w₀ w t t') {g : ℕ} (hu : isPageUsed w₀.pmm g = true) (hg : own g t = 0) :
    rd w.mem g = rd w₀.mem g :=
  rd_congr fun x hx => h.mem x (hx.symm ▸ hu) (hx.symm ▸ hg)

theorem failed_at_once (hfail : (allocPage w.pmm).1 = invalidPhysicalAddress) (hback : GivesBack t 0) (hsize : 0 < size t) :
    Failed w w t t := by
  have hzero := freePages_of_fail hfail
  exact ⟨by rwa [hzero], fun q _ => ⟨0, Nat.zero_le _, rfl⟩, fun _ _ => rfl, fun h => absurd (hzero ▸ hback) h,
    fun _ _ _ => rfl, .refl (fun _ => .inl rfl) t⟩

/-- What `clone_table` at `depth` leaves behind where it returns 0. -/
def FailSpec (depth : ℕ) : Prop :=
  ∀ (f : ℕ) (w₀ w : World),
    let t := view cls cap (rd w₀.mem) depth f
    IsBase (pageState w₀.pmm) → Ok okEntry t → (∀ g, own g t ≤ 1) → InUse w₀.pmm t →
    cloneTable depth (f * 4096) w₀ = (0, w) → Failed w₀ w t (view cls cap (rd w.mem) depth f)

theorem Allocated.ne_zero (h : Allocated w₀ w f') (hbase : IsBase (pageState w₀.pmm)) : f' * 4096 ≠ 0 := by
  intro h0
  obtain rfl : f' = 0 := by omega
  exact absurd (h.free.symm.trans hbase.zero) Bool.false_ne_true

theorem failSpec_zero : FailSpec 0 := by
  intro f w₀ w t hbase hok hu hin h
  unfold cloneTable at h
  cases ha : allocPage w₀.pmm with
  | mk a s =>
    simp only [ha] at h
    split_ifs at h with hinv
    · obtain rfl : s = w₀.pmm := allocPages_fail (hinv ▸ ha)
      obtain rfl := (Prod.mk.inj h).2
      exact failed_at_once (ha ▸ hinv) trivial (by simp [t, view, size, tally])
    · obtain ⟨f', rfl, halloc⟩ := allocated ha hinv
      exact absurd (Prod.mk.inj h).1 (halloc.ne_zero hbase)

/-- One slot of an upper table whose subtree cannot be cloned. -/
theorem cloneNode_fails (hfail : FailSpec d) (i : Fin 512) (hbase : IsBase (pageState w.pmm))
    (hsub : Clonable w.pmm (behind w.mem d f i))
    (h : cloneNode (cloneTable d) (f * 4096) (f' * 4096) i w = .error w') :
    Failed w w' (behind w.mem d f i) (kidOf cls (view cls cap (rd w'.mem) d) (rd w.mem f i)) := by
  unfold behind at hsub ⊢
  rcases cloneNode_cases i hsub with ⟨-, hcall⟩ | ⟨g, hg, he, ⟨hok, hu, hin⟩, sub, w₁, hc, hcall⟩
  · rw [hcall] at h
    cases h
  · rw [hcall] at h
    split_ifs at h with h0
    obtain rfl := Except.error.inj h
    rw [h0] at hc
    obtain ⟨hshort, hkept, hclean, hleak, hmem, hsource⟩ := hfail g w w₁ hbase hok hu hin hc
    rw [he, kidOf_table hg, kidOf_table hg]
    exact ⟨hshort, hkept, hclean, hleak, hmem, rfl, hsource⟩

/-! ### The loop over an upper table -/

section Slots

variable {m : Mem} {K : ℕ} {i j : Fin 512}

theorem own_behind_le (q : ℕ) (hi : i.val < K) (hj : j.val < K) (hij : i ≠ j) :
    own q (behind m d f i) + own q (behind m d f j) ≤ own q (upTo cls cap K (rd m) d f) := own_slots_le hij hi hj q

end Slots

section Stuck

variable {K : ℕ} {i : Fin 512} (hi : i.val < K) (hc : Clonable w₀.pmm (upTo cls cap K (rd w₀.mem) d f))
  (hloop : NodeLoop w₀ d f f' i w)
include hi hc hloop

/-- The subtree at which the loop stops. -/
theorem NodeLoop.stuck_kid (hfail : FailSpec d) (hbase : IsBase (pageState w₀.pmm))
    (herr : cloneNode (cloneTable d) (f * 4096) (f' * 4096) i w = .error w') :
    Failed w w' (behind w₀.mem d f i) (kidOf cls (view cls cap (rd w'.mem) d) (rd w₀.mem f i)) := by
  have hsame := hloop.kid_same le_rfl hi hc
  have hres := cloneNode_fails hfail i (hloop.cloned.isBase hbase) (hsame ▸ hloop.cloned.clonable (hc.behind hi)) herr
  rwa [hsame, hloop.root] at hres

theorem NodeLoop.stuck_source
    (hF : Failed w w' (behind w₀.mem d f i) (kidOf cls (view cls cap (rd w'.mem) d) (rd w₀.mem f i))) :
    Leafwise Touched (upTo cls cap K (rd w₀.mem) d f) (upTo cls cap K (rd w'.mem) d f) := by
  have hused : ∀ q, 0 < own q (upTo cls cap K (rd w₀.mem) d f) → isPageUsed w.pmm q = true := fun q hq =>
    hloop.cloned.used (.inl (hc.used hq))
  have hroot : rd w'.mem f = rd w₀.mem f := by
    rw [← hloop.root]
    exact hF.rd_same (hused f (own_upTo_self _ _ _ _)) (hc.apart hi (own_upTo_self _ _ _ _))
  refine ⟨rfl, fun j => ?_⟩
  dsimp only
  split_ifs with hj
  · rw [hroot]
    by_cases hij : i = j
    · subst hij
      exact hF.source
    -- the subtree behind slot `j` when the loop stopped, with the same tables
    obtain ⟨hrel, hown⟩ : Leafwise Touched (behind w₀.mem d f j) (behind w.mem d f j) ∧
        ∀ q, own q (behind w.mem d f j) = own q (behind w₀.mem d f j) := by
      by_cases hlt : j.val < i.val
      · have h := congrFun (Trie.node.inj hloop.marked).2 j
        simp only [if_pos hlt] at h
        change behind w.mem d f j = mapLeaf markLeaf (behind w₀.mem d f j) at h
        rw [h]
        exact ⟨leafwise_mapLeaf (fun e => .inr rfl) _, fun q => own_mapLeaf _ _ _⟩
      · rw [hloop.kid_same (by omega) hj hc]
        exact ⟨.refl (fun e => .inl rfl) _, fun q => rfl⟩
    have hkept : kidOf cls (view cls cap (rd w'.mem) d) (rd w₀.mem f j) = behind w.mem d f j := by
      rw [behind, hloop.root]
      refine kidOf_view_congr fun g hg => ?_
      have hpos : 0 < own g (behind w₀.mem d f j) := by
        rw [← hown, behind, hloop.root]
        exact hg
      have hsplit := own_behind_le (m := w₀.mem) (d := d) (f := f) g hi hj hij
      have hone := hc.uniq g
      exact hF.rd_same (hused g (by omega)) (by omega)
    rw [hkept]
    exact hrel
  · trivial

end Stuck

/-- The failing subtree is the first one, or a copy is complete. -/
theorem givesBack_upTo {K : ℕ} (hi : i.val < K)
    (henough : size (upTo cls cap i (rd m) d f) ≤ r)
    (hshort : r < size (upTo cls cap i (rd m) d f) + size (behind m d f i)) :
    GivesBack (upTo cls cap K (rd m) d f) r ↔ size (upTo cls cap i (rd m) d f) = 1 ∧ GivesBack (behind m d f i) (r - 1) := by
  have hpos : 0 < size (upTo cls cap i (rd m) d f) := by
    rw [size_upTo]
    omega
  have hslot : ∀ j : Fin 512, j.val < K →
      (if j.val < K then kidOf cls (view cls cap (rd m) d) (rd m f j) else .nil) = behind m d f j := fun j hj => if_pos hj
  constructor
  · rintro (h0 | ⟨j, hfirst, hless, hback⟩)
    · omega
    dsimp only at hfirst hless hback
    have hj : j.val < K := by
      by_contra hge
      rw [if_neg hge] at hless
      exact Nat.not_lt_zero _ hless
    rw [hslot j hj] at hless hback
    -- the first subtree is not complete, and no earlier one can fail
    obtain rfl : j = i := by
      rcases lt_trichotomy j i with hlt | heq | hgt
      · have hle : size (upTo cls cap 0 (rd m) d f) + size (behind m d f j) ≤ size (upTo cls cap i (rd m) d f) :=
          tally_behind_le _ _ (Nat.zero_le _) hlt
        rw [size_upTo] at hle
        omega
      · exact heq
      · have hzero := hfirst i hgt
        rw [hslot i hi] at hzero
        omega
    refine ⟨size_upTo_eq_one.mpr fun l hl => ?_, hback⟩
    have hzero := hfirst l hl
    rwa [hslot l (by omega)] at hzero
  · rintro ⟨hone, hback⟩
    refine .inr ⟨i, fun j hj => ?_, ?_, ?_⟩ <;> dsimp only
    · rw [hslot j (lt_trans hj hi)]
      exact size_upTo_eq_one.mp hone j hj
    · rw [hslot i hi]
      omega
    · rw [hslot i hi]
      exact hback

theorem NodeLoop.gives_up {K : ℕ} (hi : i.val < K) (hc : Clonable w₀.pmm (upTo cls cap K (rd w₀.mem) d f))
    (hbase : IsBase (pageState w₀.pmm)) (hloop : NodeLoop w₀ d f f' i w)
    (hF : Failed w w' (behind w₀.mem d f i) (kidOf cls (view cls cap (rd w'.mem) d) (rd w₀.mem f i))) :
    Failed w₀ { w' with pmm := freePage (f' * 4096) w'.pmm } (upTo cls cap K (rd w₀.mem) d f)
      (upTo cls cap K (rd w'.mem) d f) := by
  have hsource := hloop.stuck_source hi hc hF
  have hcl := hloop.cloned
  have hsplit : ∀ g h, tally g h (upTo cls cap i (rd w₀.mem) d f) + tally g h (behind w₀.mem d f i) ≤
      tally g h (upTo cls cap K (rd w₀.mem) d f) := fun g h => tally_behind_le g h le_rfl hi
  have hself : 0 < own f' (upTo cls cap i (rd w.mem) d f') := own_upTo_self _ _ _ _
  obtain ⟨hlt, hunused⟩ := hcl.fresh f' hself
  have hrefs : cnt (refs f') (behind w₀.mem d f i) = 0 := (hc.behind hi).inUse.refs_free hunused
  have hstate : ∀ q, pageState (freePage (f' * 4096) w'.pmm) q = if f' = q then (false, 0) else pageState w'.pmm q := by
    intro q
    rw [pageState_freePage _ hlt]
    by_cases hq : f' = q
    · subst hq
      rw [if_pos rfl, if_pos rfl, hF.other (hcl.used (.inr hself)) hrefs, hcl.pmm, if_pos hself]
      rfl
    · rw [if_neg hq, if_neg hq]
      rfl
  have hused : ∀ q, f' ≠ q → isPageUsed (freePage (f' * 4096) w'.pmm) q = isPageUsed w'.pmm q := fun q hq =>
    congrArg Prod.fst ((hstate q).trans (if_neg hq))
  have hpages := hcl.freePages
  have hgives := givesBack_upTo hi (Nat.le.intro ((Nat.add_comm _ _).trans hpages))
    (by have := hF.short; omega)
  refine ⟨?_, fun q hq => ?_, fun hback q => ?_, fun hleak => ?_, fun x hx hown => ?_, hsource⟩
  · have hsize := hsplit (fun _ => 1) fun _ => 0
    have hshort := hF.short
    unfold size at hpages hshort ⊢
    omega
  · have hne : f' ≠ q := by
      rintro rfl
      rw [hq] at hunused
      cases hunused
    obtain ⟨n, hn, hst⟩ := hF.kept q (hcl.used (.inl hq))
    refine ⟨n + cnt (refs q) (upTo cls cap i (rd w₀.mem) d f), ?_, ?_⟩
    · exact (Nat.add_le_add_right hn _).trans ((Nat.add_comm _ _).trans_le (hsplit _ _))
    · rw [hstate, if_neg hne, hst, hcl.pmm q, if_neg (by rw [hcl.not_own_of_used hq]; exact lt_irrefl 0),
        iterate_add_apply]
  · obtain ⟨hone, hkid⟩ := hgives.mp hback
    have hcopy : size (upTo cls cap i (rd w.mem) d f') = 1 := hcl.copy.size.trans hone
    rw [hstate]
    by_cases hq : f' = q
    · subst hq
      rw [if_pos rfl, (hbase.free f' hunused).1]
    · have hown : own q (upTo cls cap i (rd w.mem) d f') = 0 := (tally_upTo_bare _ _ hcopy).trans (if_neg hq)
      have hcnt : cnt (refs q) (upTo cls cap i (rd w₀.mem) d f) = 0 := tally_upTo_bare _ _ hone
      rw [if_neg hq, hF.clean (by rwa [← hpages, hone, Nat.add_sub_cancel] at hkid), hcl.pmm q, hown, hcnt]
      rfl
  · by_cases hone : size (upTo cls cap i (rd w₀.mem) d f) = 1
    · obtain ⟨q, hfree, hnow⟩ := hF.leak fun hkid => hleak (hgives.mpr ⟨hone, by rwa [← hpages, hone, Nat.add_sub_cancel]⟩)
      refine ⟨q, ?_, (hused q ?_).trans hnow⟩
      · by_contra hne
        rw [hcl.used (.inl (Bool.eq_true_of_not_eq_false hne))] at hfree
        cases hfree
      · rintro rfl
        rw [hcl.used (.inr hself)] at hfree
        cases hfree
    · -- a second table of the copy
      obtain ⟨q, hq, hne⟩ : ∃ q, 0 < own q (upTo cls cap i (rd w.mem) d f') ∧ f' ≠ q := by
        by_contra hnone
        push Not at hnone
        have hsum := sum_own fun g hg => (hcl.fresh g hg).1
        rw [Finset.sum_eq_single_of_mem f' (Finset.mem_range.mpr hlt) fun q _ hqf =>
          Nat.eq_zero_of_not_pos fun hpos => hqf (hnone q hpos).symm, hcl.copy.size] at hsum
        have hle := hcl.uniq f'
        omega
      exact ⟨q, (hcl.fresh q hq).2, (hused q hne).trans (hF.used (hcl.used (.inr hq)))⟩
  · have h := hsplit (fun g => if g = x / 4096 then 1 else 0) fun _ => 0
    unfold own at hown
    rw [show ({ w' with pmm := freePage (f' * 4096) w'.pmm } : World).mem x = w'.mem x from rfl,
      hF.mem x (hcl.used (.inl hx)) (by unfold own; omega), hcl.mem x (by unfold own; omega) (hcl.not_own_of_used hx)]

theorem failSpec_succ (hd : d < 2) (hspec : CloneSpec d) (hfail : FailSpec d) : FailSpec (d + 1) := by
  intro f w₀ w t hbase hok hu hin h
  have hc : Clonable w₀.pmm t := ⟨hok, hu, hin⟩
  rw [show t = _ from view_upTo hd w₀.mem f] at hc ⊢
  rw [view_upTo hd]
  rcases cloneTable_cases h with ⟨-, rfl, hnone⟩ | ⟨f', w₁, halloc, ⟨h0, -⟩ | ⟨w', -, rfl, hrun⟩⟩
  · exact failed_at_once hnone (.inl rfl) (by rw [size_upTo]; omega)
  · exact absurd h0.symm (halloc.ne_zero hbase)
  · obtain ⟨k, hk, w₂, hrun, hstop⟩ := forUpE_error hrun
    rw [Nat.zero_add] at hstop
    have hloop := cloneLoop_spec hspec hk.le (hc.first hk.le) halloc hrun
    exact hloop.gives_up hk hc hbase (hloop.stuck_kid (i := ⟨k, hk⟩) hk hc hfail hbase hstop)

theorem failSpec_two : FailSpec 2 :=
  failSpec_succ (by decide) (cloneSpec_succ (by decide) cloneSpec_zero) (failSpec_succ (by decide) cloneSpec_zero failSpec_zero)

/-! ### The clean-up of `clone_address_space` -/

theorem undoClone_spec {i : ℕ} (hi : i ≤ 512) (hok : Ok okEntry (upTo cls cap i (rd w.mem) 2 f'))
    (hm : Managed (upTo cls cap i (rd w.mem) 2 f')) (q : ℕ) :
    pageState (undoClone (f' * 4096) i w).pmm q =
      releaseState^[weight q (upTo cls cap i (rd w.mem) 2 f')] (pageState w.pmm q) := by
  have hf : f' < maxManagedPages := hm f' (by
    rw [weight_eq]; exact Nat.lt_of_lt_of_le (own_upTo_self _ _ _ _) (Nat.le_add_right _ _))
  unfold undoClone
  rw [pageState_freePage _ hf, forUp_release (c := fun j => weight q (behind w.mem 2 f' j)) hi ?_ w.pmm,
    ← iterate_add_apply, weight, tally_upTo]
  · rfl
  intro j s hj
  have hslot : Ok okEntry (behind w.mem 2 f' j) := by
    have hkid := hok j
    dsimp only at hkid
    rwa [if_pos hj] at hkid
  rw [behind, ← pageState_freeSlot (fun g s => pageState_freeTable w.mem q 2 le_rfl g s) hslot
    (fun q' hq' => hm q' (lt_of_lt_of_le hq' (weight_kidOf_le _ _ _ _ j hj))) s]
  -- an entry of the copy is not huge
  rcases slot_cases (fun g => view_frame (rd w.mem) 2 g) hslot with hP | ⟨g, hg, he, -⟩
  · simp only [← rd.eq_def, hP]
    rfl
  · obtain ⟨hP, hH, -⟩ := tableEntry_bits hg
    simp only [← rd.eq_def, he, hP, hH]
    rfl

/-! ### References taken and given back -/

theorem release_retain_iff (hr : r ≤ uint16Max) :
    releaseState^[n] (retainState^[n] (true, r)) = (true, r) ↔ (0 < n → 1 ≤ r ∧ r + n ≤ uint16Max) := by
  rcases Nat.eq_zero_or_pos n with rfl | hn
  · simp
  have hmax : 0 < uint16Max := by decide
  rw [retain_iter_min hr, release_iter_true (by omega)]
  split_ifs with hlt
  · simp only [Prod.mk.injEq, true_and, hn, forall_const]
    omega
  · simp only [Prod.mk.injEq, Bool.false_eq_true, false_and, hn, forall_const, false_iff]
    omega

/-- When a copy is given back, its tables are free again and every reference is taken off. -/
theorem Cloned.given_back (h : Cloned w₀ w src dst) (hbase : IsBase (pageState w₀.pmm)) (hin : InUse w₀.pmm src) (q : ℕ) :
    releaseState^[own q dst + cnt (refs q) src] (pageState w.pmm q) =
      releaseState^[cnt (refs q) src] (retainState^[cnt (refs q) src] (pageState w₀.pmm q)) := by
  rw [h.pmm q]
  by_cases hown : 0 < own q dst
  · have hfree := (h.fresh q hown).2
    have hone : own q dst = 1 := by
      have := h.uniq q
      omega
    rw [if_pos hown, hone, hin.refs_free hfree, (hbase.free q hfree).1]
    rfl
  · rw [if_neg hown, Nat.eq_zero_of_not_pos hown, Nat.zero_add]

/-! ### The translations of the source -/

theorem logical_markLeaf {e : Entry} (hP : has e ptePresent = true) : logical (markLeaf e) = logical e := by
  obtain ⟨-, hU, hW, hA, hC⟩ := markCow_bits e
  rw [markLeaf, if_pos hP, logical, hU, hW, hA, hC, logical, Bool.false_or, Bool.or_comm]

theorem smallEntry_lookup {va : ℕ} (hok : Ok okEntry (tree m (f * 4096))) (hva : pml4Idx va < 256) :
    smallEntry m (f * 4096) va = lookup m (f * 4096) va := by
  have hdiv : f * 4096 / 4096 = f := Nat.mul_div_cancel _ (by decide)
  rw [tree, hdiv] at hok
  rw [lookup, tree, hdiv, smallEntry]
  simp only [pml4Idx_eq, pdptIdx_eq, pdIdx_eq, ptIdx_eq, ← rd.eq_def]
  rcases view_slot_cases hok (ix_cap hva) with hP | ⟨g3, hg3, he, hok3⟩
  · rw [leafAt_absent hP]; simp [hP]
  obtain ⟨hP, -, -, -, hA⟩ := tableEntry_bits hg3
  rw [leafAt_down hva hg3 he]
  simp only [he, hP, hA, Bool.not_true, Bool.false_eq_true, if_false, ← rd.eq_def]
  rcases view_slot_cases hok3 (ix_cap hva) with hP | ⟨g2, hg2, he, hok2⟩
  · rw [leafAt_absent hP]; simp [hP]
  obtain ⟨hP, hH, -, -, hA⟩ := tableEntry_bits hg2
  rw [leafAt_down hva hg2 he]
  simp only [he, hP, hH, hA, Bool.not_true, Bool.or_self, Bool.false_eq_true, if_false, ← rd.eq_def]
  rcases view_slot_cases hok2 (ix_cap hva) with hP | ⟨g1, hg1, he, -⟩
  · rw [leafAt_absent hP]; simp [hP]
  obtain ⟨hP, hH, -, -, hA⟩ := tableEntry_bits hg1
  rw [leafAt_down hva hg1 he]
  simp only [he, hP, hH, hA, Bool.not_true, Bool.or_self, Bool.false_eq_true, if_false, ← rd.eq_def, view, leafAt]
  cases hP : has (rd m g1 (ix va 0)) ptePresent <;> simp [Option.filter, hP]

theorem access_kept {m' : Mem} (hrel : Leafwise Touched (tree m (f * 4096)) (tree m' (f * 4096)))
    (hok : Ok okEntry (tree m (f * 4096))) {va : ℕ} (hva : va ≤ userLimit) :
    (smallEntry m' (f * 4096) va).map logical = (smallEntry m (f * 4096) va).map logical := by
  rw [smallEntry_lookup hok (pml4Idx_user hva), smallEntry_lookup (hrel.keeps_ok hok) (pml4Idx_user hva), lookup, lookup]
  generalize hl : leafAt (ix va) 3 (tree m (f * 4096)) = o
  generalize hl' : leafAt (ix va) 3 (tree m' (f * 4096)) = o'
  have hleaf : Option.Rel Touched o o' := hl ▸ hl' ▸ hrel.leafAt
  cases hleaf with
  | none => rfl
  | @some e e' h =>
    rcases h with rfl | rfl
    · rfl
    · cases hP : has e ptePresent with
      | false => simp [markLeaf, hP]
      | true =>
        have hkeep : has (markLeaf e) ptePresent = true := by
          rw [markLeaf, if_pos hP, (markCow_bits e).1, hP]
        simp [Option.filter, hP, hkeep, logical_markLeaf hP]

/-! ### The failed call as a whole -/

/-- An address space as the kernel builds it; the counts have 16 bits. -/
structure Source (f : ℕ) (w : World) : Prop where
  pmm : IsBase (pageState w.pmm)
  words : ∀ q, 0 < cnt (refs q) (upTo cls cap 256 (rd w.mem) 2 f) → w.pmm.pageRefcounts q ≤ uint16Max
  ok : Ok okEntry (upTo cls cap 256 (rd w.mem) 2 f)
  unshared : ∀ g, own g (upTo cls cap 256 (rd w.mem) 2 f) ≤ 1
  inUse : InUse w.pmm (upTo cls cap 256 (rd w.mem) 2 f)

theorem Source.clonable (h : Source f w) : Clonable w.pmm (upTo cls cap 256 (rd w.mem) 2 f) := ⟨h.ok, h.unshared, h.inUse⟩

/-- The call finds no page for the PML4, or stops at an entry and cleans up. -/
theorem cloneAddressSpace_fails (h : Source f w₀) (hcall : cloneAddressSpace (f * 4096) w₀ = (0, w')) :
    w' = w₀ ∧ (w₀.kernelPml4Phys = 0 ∨ freePages w₀.pmm = 0) ∨
      ∃ (i : Fin 512) (f' : ℕ) (w₁ w₂ : World), w₀.kernelPml4Phys ≠ 0 ∧ i.val < 256 ∧ NodeLoop w₀ 2 f f' i w₁ ∧
        Failed w₁ w₂ (behind w₀.mem 2 f i) (kidOf cls (view cls cap (rd w₂.mem) 2) (rd w₀.mem f i)) ∧
        w' = undoClone (f' * 4096) i w₂ := by
  generalize h0 : (0 : ℕ) = dst at hcall
  cases cloneRun hcall with
  | none hnone => exact .inl ⟨rfl, hnone.imp_right freePages_of_fail⟩
  | done ha _ _ => exact absurd h0.symm (ha.ne_zero h.pmm)
  | @stopped f' i w₁ w₂ hkernel ha hrun =>
    obtain ⟨k, hk, w, hdone, hstop⟩ := forUpE_error hrun
    rw [Nat.zero_add] at hstop
    obtain ⟨rfl, herr⟩ : k = i ∧ cloneNode (cloneTable 2) (f * 4096) (f' * 4096) k w = .error w₂ := by
      cases hb : cloneNode (cloneTable 2) (f * 4096) (f' * 4096) k w with
      | ok w => simp [hb, Except.mapError] at hstop
      | error w => simpa [hb, Except.mapError] using hstop
    have hloop := cloneLoop_spec cloneSpec_two (by omega) (h.clonable.first hk.le) ha (forUpE_mapError.mp hdone)
    exact .inr ⟨⟨k, by omega⟩, f', w, w₂, hkernel, hk, hloop,
      hloop.stuck_kid hk h.clonable failSpec_two h.pmm herr, rfl⟩

/-- `clone_address_space` has the pages for the entries before `i`, and not for entry `i`. -/
def RunsOutAt (src : ℕ) (w : World) (i : Fin 512) : Prop :=
  size (copied w.mem src i) ≤ freePages w.pmm ∧
    freePages w.pmm - size (copied w.mem src i) < size (behind w.mem 2 (src / 4096) i)

/-- The pages run out at one entry. -/
theorem RunsOutAt.unique {src : ℕ} {j : Fin 512} (hi : RunsOutAt src w i) (hj : RunsOutAt src w j) : j = i := by
  have hnext : ∀ {k l : Fin 512}, k < l →
      size (copied w.mem src k) + size (behind w.mem 2 (src / 4096) k) ≤ size (copied w.mem src l) := fun hkl =>
    tally_behind_le _ _ le_rfl hkl
  obtain ⟨hi₁, hi₂⟩ := hi
  obtain ⟨hj₁, hj₂⟩ := hj
  rcases lt_trichotomy j i with hlt | heq | hgt
  · have := hnext hlt
    omega
  · exact heq
  · have := hnext hgt
    omega

theorem NodeLoop.freePages_ne_zero (h : NodeLoop w₀ 2 f f' k w₁) : freePages w₀.pmm ≠ 0 := by
  have hpages := h.cloned.freePages
  have hsize : size (upTo cls cap k (rd w₀.mem) 2 f) = 1 + _ := size_upTo
  omega

section Stopped

variable {i : Fin 512} {w₁ w₂ : World} (h : Source f w₀) (hi : i.val < 256) (hloop : NodeLoop w₀ 2 f f' i w₁)
  (hF : Failed w₁ w₂ (behind w₀.mem 2 f i) (kidOf cls (view cls cap (rd w₂.mem) 2) (rd w₀.mem f i)))
include h hi hloop hF

/-- The copy so far is given back. -/
theorem pageState_undo (q : ℕ) : pageState (undoClone (f' * 4096) i w₂).pmm q =
    releaseState^[own q (upTo cls cap i (rd w₁.mem) 2 f') + cnt (refs q) (upTo cls cap i (rd w₀.mem) 2 f)]
      (pageState w₂.pmm q) := by
  have hcl := hloop.cloned
  have hsame : upTo cls cap i (rd w₂.mem) 2 f' = upTo cls cap i (rd w₁.mem) 2 f' := by
    refine upTo_congr fun g hg => hF.rd_same (hcl.used (.inr hg)) (Nat.eq_zero_of_not_pos fun hpos => ?_)
    exact hg.ne' (hcl.not_own_of_used ((h.clonable.behind hi).used hpos))
  have hcnt : ∀ q, cnt (refs q) (upTo cls cap i (rd w₁.mem) 2 f') = cnt (refs q) (upTo cls cap i (rd w₀.mem) 2 f) := by
    intro q
    rw [hcl.copy.cnt]
    simp only [refs_copyLeaf]
  have hmanaged : Managed (upTo cls cap i (rd w₁.mem) 2 f') := by
    intro q' hq'
    rw [weight_eq, hcnt] at hq'
    rcases Nat.eq_zero_or_pos (own q' (upTo cls cap i (rd w₁.mem) 2 f')) with h0 | hpos
    · have hle : cnt (refs q') (upTo cls cap i (rd w₀.mem) 2 f) ≤ cnt (refs q') (upTo cls cap 256 (rd w₀.mem) 2 f) :=
        tally_upTo_mono _ _ hi.le _ _ _
      exact (h.inUse q' (by omega)).1
    · exact (hcl.fresh q' hpos).1
  rw [undoClone_spec (by omega) (hsame ▸ hcl.ok) (hsame ▸ hmanaged), hsame, weight_eq, hcnt]

/-- Nothing was complete below the failing entry: every reference taken before it is given back. -/
theorem pageState_undone (hback : GivesBack (behind w₀.mem 2 f i) (freePages w₁.pmm)) (q : ℕ) :
    pageState (undoClone (f' * 4096) i w₂).pmm q =
      releaseState^[cnt (refs q) (upTo cls cap i (rd w₀.mem) 2 f)]
        (retainState^[cnt (refs q) (upTo cls cap i (rd w₀.mem) 2 f)] (pageState w₀.pmm q)) := by
  rw [pageState_undo h hi hloop hF, hF.clean hback]
  exact hloop.cloned.given_back h.pmm (h.clonable.first hi.le).inUse q

/-- Otherwise a page of a table that was complete stays in use. -/
theorem undo_leaks (hback : ¬GivesBack (behind w₀.mem 2 f i) (freePages w₁.pmm)) :
    ∃ q, isPageUsed w₀.pmm q = false ∧ isPageUsed (undoClone (f' * 4096) i w₂).pmm q = true := by
  have hcl := hloop.cloned
  have hin := (h.clonable.first hi.le).inUse
  obtain ⟨q, hfree, hnow⟩ := hF.leak hback
  have hown : own q (upTo cls cap i (rd w₁.mem) 2 f') = 0 := by
    by_contra hne
    rw [hcl.used (.inr (Nat.pos_of_ne_zero hne))] at hfree
    cases hfree
  have hbefore : isPageUsed w₀.pmm q = false := by
    by_contra hne
    rw [hcl.used (.inl (Bool.eq_true_of_not_eq_false hne))] at hfree
    cases hfree
  have hstate := pageState_undo h hi hloop hF q
  rw [hown, hin.refs_free hbefore] at hstate
  exact ⟨q, hbefore, (pageState_ext hstate).1.trans hnow⟩

/-- The page allocator is as before where nothing was complete below the failing entry and every reference taken
before it can be given back. -/
theorem pages_restored_iff : (∀ q, pageState (undoClone (f' * 4096) i w₂).pmm q = pageState w₀.pmm q) ↔
    GivesBack (behind w₀.mem 2 f i) (freePages w₁.pmm) ∧ ∀ q, 0 < cnt (refs q) (upTo cls cap i (rd w₀.mem) 2 f) →
      1 ≤ w₀.pmm.pageRefcounts q ∧
        w₀.pmm.pageRefcounts q + cnt (refs q) (upTo cls cap i (rd w₀.mem) 2 f) ≤ uint16Max := by
  by_cases hback : GivesBack (behind w₀.mem 2 f i) (freePages w₁.pmm)
  · rw [and_iff_right hback]
    refine forall_congr' fun q => ?_
    rw [pageState_undone h hi hloop hF hback]
    rcases Nat.eq_zero_or_pos (cnt (refs q) (upTo cls cap i (rd w₀.mem) 2 f)) with h0 | hpos
    · rw [h0]
      exact iff_of_true rfl fun h0 => absurd h0 (lt_irrefl 0)
    · have hall : 0 < cnt (refs q) (upTo cls cap 256 (rd w₀.mem) 2 f) :=
        lt_of_lt_of_le hpos (tally_upTo_mono _ _ hi.le _ _ _)
      rw [pageState, (h.inUse q (Nat.add_pos_right _ hall)).2]
      exact release_retain_iff (h.words q hall)
  · refine iff_of_false (fun hsame => ?_) fun hc => hback hc.1
    obtain ⟨q, hbefore, hnow⟩ := undo_leaks h hi hloop hF hback
    rw [(pageState_ext (hsame q)).1, hbefore] at hnow
    cases hnow

omit h in
theorem at_failing_entry {C : Fin 512 → Prop} :
    (∃ j : Fin 512, j.val < 256 ∧ RunsOutAt (f * 4096) w₀ j ∧ GivesBack (behind w₀.mem 2 (f * 4096 / 4096) j)
      (freePages w₀.pmm - size (copied w₀.mem (f * 4096) j)) ∧ C j) ↔
      GivesBack (behind w₀.mem 2 f i) (freePages w₁.pmm) ∧ C i := by
  have hdiv : f * 4096 / 4096 = f := Nat.mul_div_cancel _ (by decide)
  have hpages := hloop.cloned.freePages
  have hless : freePages w₀.pmm - size (copied w₀.mem (f * 4096) i) = freePages w₁.pmm := by
    rw [copied, hdiv, ← hpages, Nat.add_sub_cancel]
  have hout : RunsOutAt (f * 4096) w₀ i := by
    refine ⟨?_, ?_⟩
    · rw [copied, hdiv, ← hpages]
      exact Nat.le_add_left _ _
    · rw [hless, hdiv]
      exact hF.short
  constructor
  · rintro ⟨j, -, hj, hback, hC⟩
    obtain rfl := hout.unique hj
    rw [hless, hdiv] at hback
    exact ⟨hback, hC⟩
  · rintro ⟨hback, hC⟩
    exact ⟨i, hi, hout, by rwa [hless, hdiv], hC⟩

end Stopped

theorem failsAt_iff {src : ℕ} : FailsAt src w i ↔ i.val < 256 ∧ RunsOutAt src w i ∧
    GivesBack (behind w.mem 2 (src / 4096) i) (freePages w.pmm - size (copied w.mem src i)) ∧
    ∀ q, 0 < cnt (refs q) (copied w.mem src i) →
      1 ≤ w.pmm.pageRefcounts q ∧ w.pmm.pageRefcounts q + cnt (refs q) (copied w.mem src i) ≤ uint16Max :=
  ⟨fun h => ⟨h.user, ⟨h.enough, h.short⟩, h.early, h.counts⟩,
    fun ⟨huser, ⟨henough, hshort⟩, hearly, hcounts⟩ => ⟨huser, henough, hshort, hearly, hcounts⟩⟩

/-- A failed `clone_address_space` leaves no trace exactly where it had no page for the PML4, or where the failing entry
fails before any table below it is complete and the references taken before it can be given back. -/
theorem failed_clone_iff {src : ℕ} (hroot : src % 4096 = 0) (h : Source (src / 4096) w)
    (hcall : cloneAddressSpace src w = (0, w')) :
    NoTrace src w w' ↔ w.kernelPml4Phys = 0 ∨ freePages w.pmm = 0 ∨ ∃ i, FailsAt src w i := by
  obtain ⟨f, rfl⟩ : ∃ f, src = f * 4096 := ⟨src / 4096, by omega⟩
  have hdiv : f * 4096 / 4096 = f := Nat.mul_div_cancel _ (by decide)
  rw [hdiv] at h
  rcases cloneAddressSpace_fails h hcall with ⟨rfl, hnone⟩ | ⟨i, f', w₁, w₂, hkernel, hi, hloop, hF, rfl⟩
  · refine iff_of_true ⟨fun _ => rfl, fun _ => rfl, fun _ _ => rfl⟩ ?_
    rcases hnone with hkernel | hzero
    · exact .inl hkernel
    · exact .inr (.inl hzero)
  have hsource := hloop.stuck_source hi h.clonable hF
  have hok := h.ok
  rw [← tree_upTo] at hok
  rw [← tree_upTo, ← tree_upTo] at hsource
  have htrace : NoTrace (f * 4096) w (undoClone (f' * 4096) i w₂) ↔
      ∀ q, pageState (undoClone (f' * 4096) i w₂).pmm q = pageState w.pmm q :=
    ⟨fun hno q => Prod.ext (hno.used q) (hno.refcounts q),
      fun hsame => ⟨fun q => (pageState_ext (hsame q)).1, fun q => (pageState_ext (hsame q)).2, fun va hva =>
        access_kept hsource hok hva⟩⟩
  have hcopied : copied w.mem (f * 4096) i = upTo cls cap i (rd w.mem) 2 f := by rw [copied, hdiv]
  rw [or_iff_right hkernel, or_iff_right (hloop.freePages_ne_zero), htrace, pages_restored_iff h hi hloop hF]
  simp only [failsAt_iff]
  rw [at_failing_entry hi hloop hF, hcopied]

/-! ### Two mapped pages -/

theorem freePages_stats (h : Wf s) : freePages s = s.allocatorStats.freePages := by
  have hsum : freePages s + usedCount s = maxManagedPages := by
    unfold freePages usedCount
    generalize maxManagedPages = N
    have hsplit := Finset.card_filter_add_card_filter_not (s := Finset.range N) fun q => isPageUsed s q = true
    simp only [Bool.not_eq_true, Finset.card_range] at hsplit
    omega
  have htotal := h.total
  rw [h.used] at htotal
  omega

theorem wf_pagesTaken (n : ℕ) : Wf (pagesTaken n) := by
  induction n with
  | zero =>
    rw [show pagesTaken 0 = Pmm.init smallBoot by simp only [pagesTaken, smallStart]]
    exact wf_init smallBoot
  | succ n ih =>
    rw [pagesTaken]
    exact ih.alloc_pages 1

theorem tally_view_slots (g : ℕ → ℕ) (h : Entry → ℕ) (S : Finset (Fin 512))
    (hS : ∀ i ∈ S, i.val < cap (d + 1)) (habsent : ∀ i ∉ S, has (rd m f i) ptePresent = false) :
    tally g h (view cls cap (rd m) (d + 1) f) = g f + ∑ i ∈ S, tally g h (behind m d f i) := by
  rw [view_succ, tally_upTo]
  refine congrArg (g f + ·) ?_
  rw [← Finset.sum_subset (Finset.subset_univ S)]
  · exact Finset.sum_congr rfl fun i hi => if_pos (hS i hi)
  · intro i _ hi
    rw [kidOf_absent (habsent i hi), tally_nil, ite_self]

theorem ok_view_slots (h : ∀ i, has (rd m f i) ptePresent = false ∨
    ∃ g, g < maxManagedPages ∧ rd m f i = tableEntry (g * 4096) ∧ Ok okEntry (view cls cap (rd m) d g)) :
    Ok okEntry (view cls cap (rd m) (d + 1) f) := by
  intro i
  dsimp only
  split_ifs
  · rcases h i with habsent | ⟨g, hg, he, hok⟩
    · rw [kidOf_absent habsent]
      trivial
    · rw [he, kidOf_table hg]
      exact ⟨⟨by rwa [view_frame], by rw [view_frame]⟩, hok⟩
  · trivial

/-- Page tables 4 and 5 below the page directory 3 map pages 6 and 7. -/
def twoMapped : Mem :=
  let m := setEntry (setEntry (fun _ => 0) (5 * 4096) (0 : Fin 512) 0x7007#64) (4 * 4096) (0 : Fin 512) 0x6007#64
  let m := setEntry (setEntry m (3 * 4096) (1 : Fin 512) (tableEntry (5 * 4096))) (3 * 4096) (0 : Fin 512) (tableEntry (4 * 4096))
  setEntry (setEntry m (2 * 4096) (0 : Fin 512) (tableEntry (3 * 4096))) (1 * 4096) (0 : Fin 512) (tableEntry (2 * 4096))

def twoWorld (n : ℕ) : World := ⟨pagesTaken n, twoMapped, 0x100000⟩

theorem twoWorld_mem : (twoWorld n).mem = twoMapped := rfl

theorem rd_setEntry (m : Mem) (f g : ℕ) (i : Fin 512) (e : Entry) :
    rd (setEntry m (f * 4096) i e) g = if g = f then update (rd m f) i e else rd m g := by
  split_ifs with h
  · rw [h, rd_setEntry_self]
  · exact rd_set_ne h

theorem rows : rd twoMapped 1 = update (fun _ => 0) 0 (tableEntry (2 * 4096)) ∧
    rd twoMapped 2 = update (fun _ => 0) 0 (tableEntry (3 * 4096)) ∧
    rd twoMapped 3 = update (update (fun _ => 0) 1 (tableEntry (5 * 4096))) 0 (tableEntry (4 * 4096)) ∧
    rd twoMapped 4 = update (fun _ => 0) 0 0x6007#64 ∧ rd twoMapped 5 = update (fun _ => 0) 0 0x7007#64 := by
  have hblank : ∀ f, rd (fun _ => 0) f = fun _ => 0 := fun f => rfl
  unfold twoMapped
  refine ⟨?_, ?_, ?_, ?_, ?_⟩
  all_goals simp only [rd_setEntry, hblank, Nat.reduceEqDiff, if_true, if_false, -Nat.reduceMul]

/-- The shape of the tree, from the leaves up. -/
theorem tally_twoMapped (g : ℕ → ℕ) (h : Entry → ℕ) (h0 : h 0 = 0) :
    tally g h (behind twoMapped 0 3 0) = g 4 + h 0x6007#64 ∧ tally g h (behind twoMapped 0 3 1) = g 5 + h 0x7007#64 ∧
      tally g h (behind twoMapped 1 2 0) = g 3 + (g 4 + h 0x6007#64 + (g 5 + h 0x7007#64)) ∧
      tally g h (behind twoMapped 2 1 0) = g 2 + (g 3 + (g 4 + h 0x6007#64 + (g 5 + h 0x7007#64))) ∧
      tally g h (upTo cls cap 256 (rd twoMapped) 2 1) = g 1 + (g 2 + (g 3 + (g 4 + h 0x6007#64 + (g 5 + h 0x7007#64)))) := by
  obtain ⟨h1, h2, h3, h4, h5⟩ := rows
  have hleaf : ∀ {f : ℕ} {e : Entry}, rd twoMapped f = update (fun _ => 0) 0 e →
      tally g h (view cls cap (rd twoMapped) 0 f) = g f + h e := by
    intro f e hrow
    rw [view, tally, hrow, Finset.sum_eq_single (0 : Fin 512)]
    · rw [update_self]
    · intro i _ hi
      rw [update_of_ne hi, h0]
    · exact fun hne => absurd (Finset.mem_univ _) hne
  have hone : ∀ {d f f' : ℕ}, rd twoMapped f = update (fun _ => 0) 0 (tableEntry (f' * 4096)) →
      tally g h (view cls cap (rd twoMapped) (d + 1) f) = g f + tally g h (behind twoMapped d f 0) := by
    intro d f f' hrow
    rw [tally_view_slots g h {0}, Finset.sum_singleton]
    · intro i hi
      rw [Finset.mem_singleton.mp hi, cap]
      split_ifs <;> decide
    · intro i hi
      rw [hrow, update_of_ne (by simpa using hi), absent_zero]
  have hbehind : ∀ {d f f' : ℕ} {i : Fin 512}, rd twoMapped f i = tableEntry (f' * 4096) → f' < maxManagedPages →
      tally g h (behind twoMapped d f i) = tally g h (view cls cap (rd twoMapped) d f') := by
    intro d f f' i he hlt
    rw [behind, he, kidOf_table hlt, tally_ptr]
  have e4 : tally g h (behind twoMapped 0 3 0) = g 4 + h 0x6007#64 := by
    rw [hbehind (by rw [h3, update_self]) (by decide), hleaf h4]
  have e5 : tally g h (behind twoMapped 0 3 1) = g 5 + h 0x7007#64 := by
    rw [hbehind (by rw [h3, update_of_ne (by decide), update_self]) (by decide), hleaf h5]
  have e3 : tally g h (behind twoMapped 1 2 0) = g 3 + (g 4 + h 0x6007#64 + (g 5 + h 0x7007#64)) := by
    rw [hbehind (by rw [h2, update_self]) (by decide), tally_view_slots g h {0, 1}, Finset.sum_pair (by decide), e4, e5]
    · intro i _
      exact i.isLt
    · intro i hi
      simp only [Finset.mem_insert, Finset.mem_singleton, not_or] at hi
      rw [h3, update_of_ne hi.1, update_of_ne hi.2, absent_zero]
  have e2 : tally g h (behind twoMapped 2 1 0) = g 2 + (g 3 + (g 4 + h 0x6007#64 + (g 5 + h 0x7007#64))) := by
    rw [hbehind (by rw [h1, update_self]) (by decide), hone h2, e3]
  refine ⟨e4, e5, e3, e2, ?_⟩
  rw [show upTo cls cap 256 (rd twoMapped) 2 1 = view cls cap (rd twoMapped) (2 + 1) 1 from rfl, hone h1, e2]

theorem isBase_pagesTaken (n : ℕ) : IsBase (pageState (pagesTaken n)) := by
  induction n with
  | zero => exact isBase_of_start start_small
  | succ n ih =>
    rw [pagesTaken]
    cases ha : allocPage (pagesTaken n) with
    | mk a s =>
      by_cases hinv : a = invalidPhysicalAddress
      · rw [hinv] at ha
        rwa [allocPages_fail ha]
      · obtain ⟨f', -, halloc⟩ := allocated (w := twoWorld n) ha hinv
        exact (NodeLoop.start (d := 0) halloc (Nat.succ_ne_self f')).cloned.isBase ih

theorem source_twoWorld
    (hused : ∀ q < 8, 1 ≤ q → isPageUsed (pagesTaken n) q = true ∧ (pagesTaken n).pageRefcounts q ≤ uint16Max) :
    Source 1 (twoWorld n) := by
  have hleaf : ∀ q, (refs q 0x6007#64 = if 6 = q then 1 else 0) ∧ refs q 0x7007#64 = if 7 = q then 1 else 0 := fun q =>
    ⟨refs_present (by decide) q, refs_present (by decide) q⟩
  have hown : ∀ q, own q (upTo cls cap 256 (rd twoMapped) 2 1) = _ := fun q =>
    (tally_twoMapped (fun g => if g = q then 1 else 0) (fun _ => 0) rfl).2.2.2.2
  have hcnt : ∀ q, cnt (refs q) (upTo cls cap 256 (rd twoMapped) 2 1) = _ := fun q =>
    (tally_twoMapped (fun _ => 0) (refs q) (refs_absent absent_zero)).2.2.2.2
  simp only [(hleaf _).1, (hleaf _).2] at hcnt
  have hmanaged : 8 < maxManagedPages := by decide
  refine ⟨isBase_pagesTaken n, fun q hq => ?_, ?_, fun q => ?_, fun q hq => ?_⟩
  · change 0 < cnt (refs q) (upTo cls cap 256 (rd twoMapped) 2 1) at hq
    rw [hcnt q] at hq
    exact (hused q (by split_ifs at hq <;> omega) (by split_ifs at hq <;> omega)).2
  · obtain ⟨h1, h2, h3, h4, h5⟩ := rows
    have hrow : ∀ {d f f' : ℕ}, rd twoMapped f = update (fun _ => 0) 0 (tableEntry (f' * 4096)) → f' < maxManagedPages →
        Ok okEntry (view cls cap (rd twoMapped) d f') → Ok okEntry (view cls cap (rd twoMapped) (d + 1) f) := by
      intro d f f' hrow hlt hok
      refine ok_view_slots fun i => ?_
      rw [hrow]
      by_cases hi : i = 0
      · rw [hi, update_self]
        exact .inr ⟨f', hlt, rfl, hok⟩
      · rw [update_of_ne hi]
        exact .inl absent_zero
    have hthree : Ok okEntry (view cls cap (rd twoMapped) 1 3) := by
      refine ok_view_slots fun i => ?_
      rw [h3]
      by_cases hi : i = 0
      · rw [hi, update_self]
        exact .inr ⟨4, by decide, rfl, trivial⟩
      · rw [update_of_ne hi]
        by_cases hi : i = 1
        · rw [hi, update_self]
          exact .inr ⟨5, by decide, rfl, trivial⟩
        · rw [update_of_ne hi]
          exact .inl absent_zero
    exact hrow h1 (by decide) (hrow h2 (by decide) hthree)
  · change own q (upTo cls cap 256 (rd twoMapped) 2 1) ≤ 1
    rw [hown q]
    split_ifs <;> omega
  · change 0 < own q (upTo cls cap 256 (rd twoMapped) 2 1) + cnt (refs q) (upTo cls cap 256 (rd twoMapped) 2 1) at hq
    rw [hown q, hcnt q] at hq
    have hq8 : q < 8 ∧ 1 ≤ q := by split_ifs at hq <;> omega
    exact ⟨by omega, (hused q hq8.1 hq8.2).1⟩

theorem clone_short (h : Source f w) (hshort : freePages w.pmm < size (upTo cls cap 256 (rd w.mem) 2 f)) :
    ∃ w', cloneAddressSpace (f * 4096) w = (0, w') := by
  cases hcall : cloneAddressSpace (f * 4096) w with
  | mk dst w' =>
    by_cases h0 : dst = 0
    · exact ⟨w', by rw [h0]⟩
    obtain ⟨f', -, hcl, -⟩ := cloneAddressSpace_spec ((tree_upTo w.mem f).symm ▸ h.clonable) hcall h0
    have hpages := hcl.freePages
    rw [tree_upTo] at hpages
    omega

theorem size_twoMapped : size (behind twoMapped 0 3 0) = 1 ∧ size (behind twoMapped 0 3 1) = 1 ∧
    size (behind twoMapped 1 2 0) = 3 ∧ size (behind twoMapped 2 1 0) = 4 ∧ size (upTo cls cap 256 (rd twoMapped) 2 1) = 5 :=
  tally_twoMapped (fun _ => 1) (fun _ => 0) rfl

theorem givesBack_behind (he : rd m f i = tableEntry (f' * 4096)) (hlt : f' < maxManagedPages) :
    GivesBack (behind m d f i) r ↔ GivesBack (view cls cap (rd m) d f') r := by
  rw [behind, he, kidOf_table hlt]
  rfl

section TwoWorld

variable {n : ℕ} (hsource : Source 1 (twoWorld n))

theorem freePages_twoWorld (h : (pagesTaken n).allocatorStats.freePages = k) : freePages (twoWorld n).pmm = k :=
  (freePages_stats (wf_pagesTaken n)).trans h

include hsource in
theorem clone_twoWorld (hless : freePages (twoWorld n).pmm < 5) : ∃ w', cloneAddressSpace (1 * 4096) (twoWorld n) = (0, w') := by
  refine clone_short hsource ?_
  rw [twoWorld_mem, size_twoMapped.2.2.2.2]
  exact hless

/-- Two pages are left: the PML4 and the table below it. -/
theorem failsAt_two (hpages : freePages (twoWorld n).pmm = 2) : FailsAt (1 * 4096) (twoWorld n) 0 := by
  obtain ⟨h1, h2, -⟩ := rows
  have hslot : rd twoMapped 1 0 = tableEntry (2 * 4096) := by rw [h1, update_self]
  have hcopied : copied twoMapped (1 * 4096) (0 : Fin 512) = .node 1 fun _ => .nil := upTo_zero _ _ _
  have hsize : size (copied twoMapped (1 * 4096) (0 : Fin 512)) = 1 := tally_upTo_zero _ _ _ _ _
  have hroot : (1 * 4096) / 4096 = 1 := rfl
  refine ⟨by decide, ?_, ?_, ?_, fun q hq => ?_⟩
  · rw [hpages, twoWorld_mem, hsize]
    decide
  · rw [hpages, twoWorld_mem, hsize, hroot, size_twoMapped.2.2.2.1]
    decide
  · rw [hpages, twoWorld_mem, hsize, hroot, givesBack_behind hslot (by decide)]
    refine .inr ⟨0, fun j hj => absurd hj (Fin.not_lt_zero j), ?_, ?_⟩
    · exact lt_of_lt_of_eq (by decide) size_twoMapped.2.2.1.symm
    · exact (givesBack_behind (by rw [h2, update_self]) (by decide)).mpr (.inl rfl)
  · rw [twoWorld_mem, hcopied] at hq
    simp [cnt_node] at hq

/-- Three pages for the tables below the PML4: page table 4 is copied, then there is no page for page table 5. -/
theorem not_givesBack_three : ¬GivesBack (behind twoMapped 2 1 0) 3 := by
  obtain ⟨h1, h2, h3, -⟩ := rows
  have hone : size (upTo cls cap ((0 : Fin 512) : ℕ) (rd twoMapped) 1 2) = 1 := tally_upTo_zero _ _ _ _ _
  have htwo : size (upTo cls cap ((1 : Fin 512) : ℕ) (rd twoMapped) 0 3) = 2 := by
    have hnext : size (upTo cls cap (0 + 1) (rd twoMapped) 0 3) =
        size (upTo cls cap 0 (rd twoMapped) 0 3) + size (behind twoMapped 0 3 0) := tally_upTo_succ _ _ (by decide) _ _ _
    rw [size_twoMapped.1, show size (upTo cls cap 0 (rd twoMapped) 0 3) = 1 from tally_upTo_zero _ _ _ _ _] at hnext
    exact hnext
  rw [givesBack_behind (by rw [h1, update_self]) (by decide), view_succ,
    givesBack_upTo (i := 0) (by decide) (by rw [hone]; decide) (by rw [hone, size_twoMapped.2.2.1]; decide),
    givesBack_behind (by rw [h2, update_self]) (by decide), view_succ,
    givesBack_upTo (i := 1) (by decide) (by rw [htwo]) (by rw [htwo, size_twoMapped.2.1]; decide), htwo]
  exact fun h => absurd h.2.1 (by decide)

include hsource in
theorem traced_four (hpages : freePages (twoWorld n).pmm = 4)
    (hcall : cloneAddressSpace (1 * 4096) (twoWorld n) = (0, w')) : ¬NoTrace (1 * 4096) (twoWorld n) w' := by
  intro hno
  rcases cloneAddressSpace_fails hsource hcall with ⟨-, hkernel | hzero⟩ | ⟨i, f', w₁, w₂, -, hi, hloop, hF, rfl⟩
  · cases hkernel
  · omega
  obtain ⟨hback, -⟩ := (pages_restored_iff hsource hi hloop hF).mp fun q => Prod.ext (hno.used q) (hno.refcounts q)
  have hshort := hF.short
  have hleft := hloop.cloned.freePages
  rw [twoWorld_mem] at hback hshort hleft
  obtain rfl : i = 0 := by
    by_contra hne
    have habsent : has (rd twoMapped 1 i) ptePresent = false := by
      rw [rows.1, update_of_ne hne, absent_zero]
    rw [behind, kidOf_absent habsent] at hshort
    exact absurd hshort (Nat.not_lt_zero _)
  have hone : size (upTo cls cap ((0 : Fin 512) : ℕ) (rd twoMapped) 2 1) = 1 := tally_upTo_zero _ _ _ _ _
  rw [show freePages w₁.pmm = 3 by omega] at hback
  exact not_givesBack_three hback

end TwoWorld

/-- The table below the PML4 cannot be copied in full with two pages, and nothing stays. -/
theorem clone_fails_early : ∃ w', cloneAddressSpace (1 * 4096) (twoWorld 13) = (0, w') ∧ NoTrace (1 * 4096) (twoWorld 13) w' := by
  have hpages : freePages (twoWorld 13).pmm = 2 := freePages_twoWorld (by decide +kernel)
  have hsource : Source 1 (twoWorld 13) := source_twoWorld (by decide +kernel)
  obtain ⟨w', hcall⟩ := clone_twoWorld hsource (by omega)
  exact ⟨w', hcall, (failed_clone_iff rfl hsource hcall).mpr (.inr (.inr ⟨0, failsAt_two hpages⟩))⟩

/-- With four pages the copy of page table 4 stays. -/
theorem clone_leaks : Source 1 (twoWorld 11) ∧
    ∃ w', cloneAddressSpace (1 * 4096) (twoWorld 11) = (0, w') ∧ ¬NoTrace (1 * 4096) (twoWorld 11) w' := by
  have hpages : freePages (twoWorld 11).pmm = 4 := freePages_twoWorld (by decide +kernel)
  have hsource : Source 1 (twoWorld 11) := source_twoWorld (by decide +kernel)
  obtain ⟨w', hcall⟩ := clone_twoWorld hsource (by omega)
  exact ⟨hsource, w', hcall, traced_four hsource hpages hcall⟩

end Tori.Vmm
