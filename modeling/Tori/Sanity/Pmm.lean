import Tori.Spec.Pmm

/-! What the operations of the page allocator do to one page. `pageState s q` is the
pair (used, reference count) of page `q`; each operation is described by its effect
on every page, so later files never look at the bitmap words. -/

namespace Tori.Pmm

open Word Loop Function

variable {s s' : State} {n : ℕ}

theorem isPageUsed_eq (s : State) (p : ℕ) :
    isPageUsed s p = (s.pageBitmap (p / 64)).getLsbD (p % 64) :=
  and_shift_ne_zero _ (Nat.mod_lt _ (by decide))

def pageState (s : State) (q : ℕ) : Bool × ℕ := (isPageUsed s q, s.pageRefcounts q)

variable {q r a : ℕ} {u : Bool}

theorem pageState_ext (h : pageState s' q = pageState s q) :
    isPageUsed s' q = isPageUsed s q ∧ s'.pageRefcounts q = s.pageRefcounts q :=
  Prod.mk.inj h

/-- The guard of `mark_page_used` and `mark_page_free`. -/
theorem guard_iff (p : ℕ) (b : Bool) : (!pageIndexValid p || b) = true ↔ ¬(p < maxManagedPages ∧ b = false) := by
  by_cases hp : p < maxManagedPages <;> cases b <;> simp [pageIndexValid, hp]

theorem pageState_set {p : ℕ} (hbit : ∀ q, isPageUsed s' q = if q = p then u else isPageUsed s q)
    (hrc : s'.pageRefcounts = update s.pageRefcounts p r) (q : ℕ) :
    pageState s' q = if q = p then (u, r) else pageState s q := by
  unfold pageState
  rw [hbit, hrc, update_apply]
  split_ifs <;> rfl

theorem pageState_markPageUsed (s : State) (p q : ℕ) :
    pageState (markPageUsed p s) q =
      if q = p ∧ p < maxManagedPages ∧ isPageUsed s p = false then (true, 1) else pageState s q := by
  unfold markPageUsed
  simp only [guard_iff]
  by_cases hv : p < maxManagedPages ∧ isPageUsed s p = false
  · rw [if_neg (not_not_intro hv)]
    simp only [hv, and_true]
    refine pageState_set (fun q => ?_) rfl q
    exact bitAt_setBit s.pageBitmap p q
  · rw [if_pos hv, if_neg (fun h => hv h.2)]

theorem pageState_markPageFree (s : State) (p q : ℕ) :
    pageState (markPageFree p s) q =
      if q = p ∧ p < maxManagedPages ∧ isPageUsed s p = true then (false, 0) else pageState s q := by
  unfold markPageFree
  simp only [guard_iff, Bool.not_eq_false']
  by_cases hv : p < maxManagedPages ∧ isPageUsed s p = true
  · rw [if_neg (not_not_intro hv)]
    simp only [hv, and_true]
    refine pageState_set (fun q => ?_) rfl q
    exact bitAt_clearBit s.pageBitmap p q
  · rw [if_pos hv, if_neg (fun h => hv h.2)]

theorem pageState_setRefcount (s : State) (p r q : ℕ) :
    pageState { s with pageRefcounts := update s.pageRefcounts p r } q =
      if q = p then (isPageUsed s p, r) else pageState s q := by
  by_cases hq : q = p
  · subst hq; simp [pageState, isPageUsed]
  · simp [pageState, isPageUsed, hq]

/-- A loop over pages of which each round sets the state of one. -/
theorem pageState_forUp {f : ℕ → State → State} {g : Bool × ℕ → Bool × ℕ} (s : State) (page n : ℕ)
    (hf : ∀ i s', page ≤ i → i < page + n → pageState s' i = pageState s i →
      ∀ q, pageState (f i s') q = if q = i then g (pageState s i) else pageState s' q) (q : ℕ) :
    pageState (forUp f n page s) q = if page ≤ q ∧ q < page + n then g (pageState s q) else pageState s q := by
  refine forUp_inv (P := fun i s' => ∀ q, pageState s' q =
    if page ≤ q ∧ q < i then g (pageState s q) else pageState s q) n page s ?_ (fun q => by rw [if_neg (by omega)]) q
  intro i s' h1 h2 hP q
  have hi := hP i
  rw [if_neg (by omega)] at hi
  rw [hf i s' h1 h2 hi, hP q]
  by_cases hq : q = i
  · subst hq
    rw [if_pos rfl, if_pos ⟨h1, by omega⟩]
  · rw [if_neg hq]
    exact if_congr (by omega) rfl rfl

theorem pageState_markRun (s : State) (page n : ℕ) (hle : page + n ≤ maxManagedPages)
    (hfree : ∀ q, page ≤ q → q < page + n → isPageUsed s q = false) (q : ℕ) :
    pageState (forUp markPageUsed n page s) q =
      if page ≤ q ∧ q < page + n then (true, 1) else pageState s q := by
  refine pageState_forUp (g := fun _ => (true, 1)) s page n (fun i s' h1 h2 hs q => ?_) q
  rw [pageState_markPageUsed]
  exact if_congr (and_iff_left ⟨by omega, (pageState_ext hs).1.trans (hfree i h1 h2)⟩) rfl rfl

theorem pageRangeFree_spec {page : ℕ} (h : pageRangeFree s page n = true) :
    0 < n ∧ page < maxManagedPages ∧ (n ≤ maxManagedPages → page + n ≤ maxManagedPages) ∧
      ∀ q, page ≤ q → q < page + n → isPageUsed s q = false := by
  unfold pageRangeFree at h
  split_ifs at h with h1 h2
  rw [not_or, not_or] at h1
  have hnone : ∀ (k lo : ℕ), findUp (fun p => isPageUsed s p) k lo = none →
      ∀ q, lo ≤ q → q < lo + k → isPageUsed s q = false := by
    intro k
    induction k with
    | zero => intro lo _ q h3 h4; omega
    | succ k ih =>
      intro lo hf q h3 h4
      rw [findUp] at hf
      split_ifs at hf with hu
      by_cases hq : q = lo
      · subst hq; simpa using hu
      · exact ih (lo + 1) hf q (by omega) (by omega)
  refine ⟨by omega, by omega, ?_, hnone n page (Option.isNone_iff_eq_none.1 h)⟩
  intro hn
  have hsmall : page + n < 2 ^ 64 := by
    have : maxManagedPages = 1048576 := rfl
    omega
  rw [u64_of_lt hsmall] at h2
  omega

/-- A successful `alloc_pages`: the run was free, is now used with one reference each,
and no other page changes. -/
theorem allocPages_spec (h : allocPages n s = (a, s'))
    (hok : a ≠ invalidPhysicalAddress) :
    ∃ page, a = page * pageSize ∧ 0 < n ∧ page + n ≤ maxManagedPages ∧
      (∀ q, page ≤ q → q < page + n → isPageUsed s q = false) ∧
      (∀ q, pageState s' q = if page ≤ q ∧ q < page + n then (true, 1) else pageState s q) ∧
      s'.nextSearchPage = (page + n) % maxManagedPages := by
  unfold allocPages at h
  split_ifs at h with h1
  · exact absurd (Prod.mk.inj h).1.symm hok
  · cases hf : findRun s n with
    | none => rw [hf] at h; exact absurd (Prod.mk.inj h).1.symm hok
    | some page =>
      rw [hf] at h
      cases h
      obtain ⟨off, hoff, rfl⟩ := Option.map_eq_some_iff.1 hf
      obtain ⟨-, -, hfree⟩ := findUp_some hoff
      obtain ⟨hpos, -, hle, hall⟩ := pageRangeFree_spec hfree
      have hle := hle (by omega)
      exact ⟨_, rfl, hpos, hle, hall, pageState_markRun s _ n hle hall, rfl⟩

theorem allocPages_fail
    (h : allocPages n s = (invalidPhysicalAddress, s')) : s' = s := by
  unfold allocPages at h
  split_ifs at h with h1
  · exact (Prod.mk.inj h).2.symm
  · cases hf : findRun s n with
    | none => rw [hf] at h; exact (Prod.mk.inj h).2.symm
    | some page =>
      rw [hf] at h
      -- a page address is a multiple of 4096 below 2 ^ 32, never `UINT64_MAX`
      obtain ⟨off, -, rfl⟩ := Option.map_eq_some_iff.1 hf
      have hlt : (s.nextSearchPage + off) % maxManagedPages < maxManagedPages :=
        Nat.mod_lt _ (by decide)
      have := (Prod.mk.inj h).1
      simp only [invalidPhysicalAddress, pageSize, maxManagedPages] at this hlt
      omega

/-- `retain_page` on one page. -/
def retainState : Bool × ℕ → Bool × ℕ
  | (true, r) => (true, if r ≠ uint16Max then r + 1 else r)
  | (false, r) => (false, r)

/-- One reference of a page given back. -/
def releaseState : Bool × ℕ → Bool × ℕ
  | (true, r) => if r > 1 then (true, r - 1) else (false, 0)
  | (false, r) => (false, r)

theorem retainState_true (r : ℕ) : retainState (true, r) = (true, if r ≠ uint16Max then r + 1 else r) := rfl

theorem releaseState_true (r : ℕ) : releaseState (true, r) = if r > 1 then (true, r - 1) else (false, 0) := rfl

theorem retain_iter_min (hr : r ≤ uint16Max) : retainState^[n] (true, r) = (true, min (r + n) uint16Max) := by
  induction n with
  | zero => rw [Nat.add_zero, min_eq_left hr]; rfl
  | succ n ih =>
    rw [iterate_succ_apply', ih, retainState_true]
    congr 1
    split_ifs with h <;> omega

theorem retain_iter_true (h : r + n ≤ uint16Max) : retainState^[n] (true, r) = (true, r + n) := by
  rw [retain_iter_min (by omega), min_eq_left h]

theorem release_iter_true (hr : 0 < r) :
    releaseState^[n] (true, r) = if n < r then (true, r - n) else (false, 0) := by
  induction n with
  | zero => rw [if_pos hr]; rfl
  | succ n ih =>
    rw [iterate_succ_apply', ih]
    by_cases hn : n < r
    · rw [if_pos hn, releaseState_true]
      by_cases hlast : n + 1 < r
      · rw [if_pos (by omega), if_pos hlast, Nat.sub_sub]
      · rw [if_neg (by omega), if_neg hlast]
    · rw [if_neg hn, if_neg (by omega)]
      rfl

theorem pageState_retainPage (s : State) (p q : ℕ) (hp : p < maxManagedPages) :
    pageState (retainPage (p * pageSize) s) q =
      if q = p then retainState (pageState s p) else pageState s q := by
  unfold retainPage
  have hmod : p * pageSize % pageSize = 0 := Nat.mul_mod_left _ _
  have hdiv : p * pageSize / pageSize = p := Nat.mul_div_cancel _ (by decide)
  simp only [hmod, hdiv, ne_eq, not_true_eq_false, if_false, pageIndexValid, hp, decide_true,
    Bool.not_true, Bool.false_or]
  cases hu : isPageUsed s p with
  | false =>
    simp only [Bool.not_false, if_true]
    by_cases hq : q = p
    · subst hq; simp [pageState, hu, retainState]
    · rw [if_neg hq]
  | true =>
    simp only [Bool.not_true, Bool.false_eq_true, if_false]
    by_cases hr : s.pageRefcounts p = uint16Max
    · simp only [hr, not_true_eq_false, if_false]
      by_cases hq : q = p
      · subst hq; simp [pageState, hu, retainState, hr]
      · rw [if_neg hq]
    · simp only [hr, not_false_eq_true, if_true, pageState_setRefcount, hu]
      simp only [pageState, hu, retainState, ne_eq, hr, not_false_eq_true, if_true]

theorem retainPage_outside
    (h : a % pageSize ≠ 0 ∨ maxManagedPages ≤ a / pageSize) : retainPage a s = s := by
  unfold retainPage pageIndexValid
  dsimp only
  split_ifs with h1 h2 h3
  · rfl
  · rfl
  · exfalso
    simp only [Bool.or_eq_true, Bool.not_eq_true', decide_eq_false_iff_not, not_or] at h2
    omega
  · rfl

theorem pageState_freeOne (s : State) (p q : ℕ) (hp : p < maxManagedPages) :
    pageState (freeOne p s) q =
      if q = p then releaseState (pageState s p) else pageState s q := by
  unfold freeOne
  cases hu : isPageUsed s p with
  | false =>
    simp only [Bool.not_false, if_true]
    by_cases hq : q = p
    · subst hq; simp [pageState, hu, releaseState]
    · rw [if_neg hq]
  | true =>
    simp only [Bool.not_true, Bool.false_eq_true, if_false]
    by_cases hr : s.pageRefcounts p > 1
    · simp only [hr, if_true, pageState_setRefcount, hu]
      simp only [pageState, hu, releaseState, hr, if_true]
    · simp only [hr, if_false]
      rw [pageState_markPageFree]
      by_cases hq : q = p
      · subst hq; simp [hp, hu, pageState, releaseState, hr]
      · simp [hq]

theorem pageState_freeRun (s : State) (page n : ℕ) (hle : page + n ≤ maxManagedPages) (q : ℕ) :
    pageState (forUp freeOne n page s) q =
      if page ≤ q ∧ q < page + n then releaseState (pageState s q) else pageState s q :=
  pageState_forUp s page n (fun i s' _ _ hs q => hs ▸ pageState_freeOne s' i q (by omega)) q

theorem pageState_freePages (s : State) (page n : ℕ) (hn : 0 < n) (hle : page + n ≤ maxManagedPages)
    (q : ℕ) :
    pageState (freePages (page * pageSize) n s) q =
      if page ≤ q ∧ q < page + n then releaseState (pageState s q) else pageState s q := by
  unfold freePages
  have hmod : page * pageSize % pageSize = 0 := Nat.mul_mod_left _ _
  have hdiv : page * pageSize / pageSize = page := Nat.mul_div_cancel _ (by decide)
  have hmax : maxManagedPages = 1048576 := rfl
  rw [if_neg (by rw [not_or]; exact ⟨not_not_intro hmod, by omega⟩)]
  simp only [hdiv]
  rw [if_neg (by rw [u64_of_lt (by omega)]; simp [pageIndexValid]; omega),
    if_neg (show ¬ page + n > maxManagedPages by omega), Nat.add_sub_cancel_left,
    ← pageState_freeRun s page n hle q]
  split_ifs <;> rfl

end Tori.Pmm
