import Tori.Spec.Runtime

/-! `memmove` copies as if through a buffer, and the symbol lookup finds the predecessor. -/

namespace Tori.Runtime

open Loop

theorem memmove_eq (destination source count : ℕ) (m : Mem) :
    memmove destination source count m =
      (destination, fun x => if destination ≤ x ∧ x < destination + count then m (source + (x - destination)) else m x) := by
  refine Prod.ext rfl (funext fun x => ?_)
  dsimp only [memmove]
  by_cases h1 : destination < source
  · rw [if_pos h1, Mem.forUp_copy _ _ _ _ (.inl h1.le), Nat.add_zero, Nat.zero_add]
  rw [if_neg h1]
  by_cases h2 : destination > source
  · rw [if_pos h2, Mem.forDown_copy _ _ _ h2.le]
  · obtain rfl : destination = source := by omega
    rw [if_neg h2]
    split_ifs with hx
    · rw [Nat.add_sub_cancel' hx.1]
    · rfl

/-! ### Symbols -/

/-- Entry `k` is the last one at or below `addr`. -/
def Symtab.Last (t : Symtab) (addr k : ℕ) : Prop :=
  k < t.count ∧ (t.start k).addr ≤ addr ∧ ∀ j, k < j → j < t.count → addr < (t.start j).addr

variable {t : Symtab} {addr : ℕ}

/-- Below `lo` nothing is left to find, unless it is 0; above `hi` every entry is too high. -/
theorem lookupLoop_last (lo hi : ℤ) (h0 : 0 ≤ lo) (hhi : hi < t.count)
    (hlo : lo = 0 ∨ lo < t.count ∧ (t.start lo.toNat).addr ≤ addr)
    (habove : ∀ j : ℕ, hi < j → j < t.count → addr < (t.start j).addr) :
    (lookupLoop t addr lo hi = none ∧ ∀ j < t.count, addr < (t.start j).addr) ∨
      ∃ k, t.Last addr k ∧ lookupLoop t addr lo hi = some ((t.start k).name, addr - (t.start k).addr) := by
  fun_induction lookupLoop t addr lo hi with
  | case1 lo hi hle mid sa hlt ih =>
    exact ih h0 (by omega) hlo fun j hj hjc => hlt.trans_le (t.sorted _ _ (by omega) hjc)
  | case2 lo hi hle mid sa hge hlast =>
    refine .inr ⟨mid.toNat, ⟨by omega, not_lt.1 hge, fun j hj hjc => ?_⟩, rfl⟩
    rcases hlast with hlast | hnext
    · omega
    · exact hnext.trans_le (t.sorted _ _ (by omega) hjc)
  | case3 lo hi hle mid sa hge hnext ih =>
    rw [not_or, not_lt] at hnext
    exact ih (by omega) hhi (.inr ⟨by omega, hnext.2⟩) habove
  | case4 lo hi hgt =>
    refine .inl ⟨rfl, fun j hj => ?_⟩
    rcases hlo with rfl | ⟨hlt, hle⟩
    · exact habove j (by omega) hj
    · exact absurd (habove lo.toNat (by omega) (by omega)) (not_lt.2 hle)

/-- The lookup is the predecessor query. -/
theorem lookup_predecessor (t : Symtab) (addr : ℕ) :
    (lookup t addr = none ↔ t.count = 0 ∨ addr < (t.start 0).addr) ∧
      (lookup t addr = none ∨
        ∃ k, t.Last addr k ∧ lookup t addr = some ((t.start k).name, addr - (t.start k).addr)) := by
  unfold lookup
  split_ifs with h0
  · simp [h0]
  rcases lookupLoop_last (t := t) 0 (t.count - 1) le_rfl (by omega) (.inl rfl)
    (fun j hj hjc => by omega) with ⟨hnone, hall⟩ | ⟨k, hk, hsome⟩
  · rw [hnone]
    exact ⟨iff_of_true rfl (.inr (hall 0 (by omega))), .inl rfl⟩
  · rw [hsome]
    have h1 := t.sorted 0 k (Nat.zero_le k) hk.1
    have h2 := hk.2.1
    exact ⟨iff_of_false (by simp) (by omega), .inr ⟨k, hk, rfl⟩⟩

end Tori.Runtime
