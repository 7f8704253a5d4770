import Mathlib.Algebra.BigOperators.Fin
import Mathlib.Tactic

/-! Sums of which one term changes. -/

namespace Tori

variable {ι α : Type} [DecidableEq ι] {L : Finset ι} {i : ι}

theorem sum_replace (f f' : ι → ℕ) (hi : i ∈ L) (h : ∀ j ∈ L, j ≠ i → f' j = f j) :
    ∑ j ∈ L, f' j + f i = ∑ j ∈ L, f j + f' i := by
  have hrest : ∑ j ∈ L.erase i, f' j = ∑ j ∈ L.erase i, f j :=
    Finset.sum_congr rfl fun j hj => h j (Finset.mem_of_mem_erase hj) (Finset.ne_of_mem_erase hj)
  rw [← Finset.add_sum_erase L f hi, ← Finset.add_sum_erase L f' hi, hrest]
  omega

theorem sum_update (w : α → ℕ) (x : ι → α) (hi : i ∈ L) (a : α) :
    ∑ j ∈ L, w (Function.update x i a j) + w (x i) = ∑ j ∈ L, w (x j) + w a := by
  have h := sum_replace (fun j => w (x j)) (fun j => w (Function.update x i a j)) hi
    fun j _ hj => by rw [Function.update_of_ne hj]
  rwa [Function.update_self] at h

end Tori
