import Mathlib.Data.Fin.Basic
import Mathlib.Data.List.Range
import Mathlib.Tactic

/-! A ring of `N` cells with an index to write and an index to read. It is empty where the two are equal, so it holds at
most `N - 1` values; `contents` lists them, oldest first. -/

namespace Tori

structure Ring (N : ℕ) (E : Type) where
  entries : Fin N → E
  writeIdx : Fin N
  readIdx : Fin N

namespace Ring

variable {N : ℕ} [NeZero N] {E F : Type} {r : Ring N E}

/-- The index after `i`, around the end. -/
def next (i : Fin N) : Fin N := Fin.ofNat N (i.val + 1)

def used (r : Ring N E) : ℕ := (r.writeIdx.val + (N - r.readIdx.val)) % N

/-- The cell `i` places after the one to read. -/
def cell (r : Ring N E) (i : ℕ) : Fin N := Fin.ofNat N (r.readIdx.val + i)

def contents (r : Ring N E) : List E := (List.range r.used).map fun i => r.entries (r.cell i)

/-- The two halves of a push: the value is stored, then the index advances. -/
def store (r : Ring N E) (e : E) : Ring N E := { r with entries := Function.update r.entries r.writeIdx e }

def advance (r : Ring N E) : Ring N E := { r with writeIdx := next r.writeIdx }

/-- The caller sees to it that there is room. -/
def push (r : Ring N E) (e : E) : Ring N E := (r.store e).advance

def pop (r : Ring N E) : Ring N E := { r with readIdx := next r.readIdx }

/-- Take values until the ring is empty, at most `k` of them. -/
def drain : ℕ → Ring N E → List E × Ring N E
  | 0, r => ([], r)
  | k + 1, r =>
    if r.readIdx = r.writeIdx then ([], r)
    else
      let (es, r') := drain k r.pop
      (r.entries r.readIdx :: es, r')

def map (f : E → F) (r : Ring N E) : Ring N F := ⟨fun i => f (r.entries i), r.writeIdx, r.readIdx⟩

theorem next_val (i : Fin N) : (next i).val = if i.val + 1 = N then 0 else i.val + 1 := by
  have := i.isLt
  unfold next
  rw [Fin.val_ofNat]
  split_ifs with h
  · rw [h, Nat.mod_self]
  · exact Nat.mod_eq_of_lt (by omega)

theorem next_injective : Function.Injective (next : Fin N → Fin N) := by
  intro i j h
  have hval := congrArg Fin.val h
  have := i.isLt
  have := j.isLt
  rw [next_val, next_val] at hval
  refine Fin.ext ?_
  split_ifs at hval <;> omega

omit [NeZero N] in
/-- The count as it is computed from the two indices. -/
theorem used_eq (r : Ring N E) : r.used =
    if r.writeIdx.val ≥ r.readIdx.val then r.writeIdx.val - r.readIdx.val else N - (r.readIdx.val - r.writeIdx.val) := by
  have := r.writeIdx.isLt
  have := r.readIdx.isLt
  unfold used
  split_ifs with h
  · rw [show r.writeIdx.val + (N - r.readIdx.val) = r.writeIdx.val - r.readIdx.val + N by omega, Nat.add_mod_right]
    exact Nat.mod_eq_of_lt (by omega)
  · rw [Nat.mod_eq_of_lt (by omega)]
    omega

theorem used_lt (r : Ring N E) : r.used < N := Nat.mod_lt _ (NeZero.pos N)

@[simp] theorem length_contents (r : Ring N E) : r.contents.length = r.used := by
  simp [contents]

theorem cell_val {i : ℕ} (hi : i < N) :
    (r.cell i).val = if r.readIdx.val + i < N then r.readIdx.val + i else r.readIdx.val + i - N := by
  have := r.readIdx.isLt
  unfold cell
  rw [Fin.val_ofNat]
  split_ifs with h
  · exact Nat.mod_eq_of_lt h
  · rw [Nat.mod_eq_sub_mod (by omega)]
    exact Nat.mod_eq_of_lt (by omega)

omit [NeZero N] in
theorem used_eq_zero : r.used = 0 ↔ r.readIdx = r.writeIdx := by
  have := r.writeIdx.isLt
  have := r.readIdx.isLt
  rw [used_eq, Fin.ext_iff]
  split_ifs <;> omega

theorem full_iff : next r.writeIdx = r.readIdx ↔ r.used + 1 = N := by
  have := r.writeIdx.isLt
  have := r.readIdx.isLt
  rw [used_eq, Fin.ext_iff, next_val]
  split_ifs <;> omega

theorem used_advance (h : next r.writeIdx ≠ r.readIdx) : r.advance.used = r.used + 1 := by
  have hne : r.used + 1 ≠ N := fun hfull => h (full_iff.mpr hfull)
  have := r.writeIdx.isLt
  have := r.readIdx.isLt
  rw [used_eq] at hne ⊢
  rw [used_eq]
  simp only [advance, next_val]
  split_ifs at hne ⊢ <;> omega

theorem used_push (e : E) (h : next r.writeIdx ≠ r.readIdx) : (r.push e).used = r.used + 1 :=
  @used_advance N _ E (r.store e) h

theorem used_pop (h : r.readIdx ≠ r.writeIdx) : r.used = r.pop.used + 1 := by
  have := r.writeIdx.isLt
  have := r.readIdx.isLt
  rw [used_eq, used_eq]
  simp only [pop, next_val]
  split_ifs <;> omega

theorem contents_empty (h : r.readIdx = r.writeIdx) : r.contents = [] := by
  rw [contents, used_eq_zero.mpr h]
  rfl

/-- The cell to write is none of those that hold a value. -/
theorem contents_store (e : E) : (r.store e).contents = r.contents := by
  have hlt := r.used_lt
  refine List.map_congr_left fun i hi => Function.update_of_ne (fun heq => ?_) _ _
  have hi : i < r.used := List.mem_range.mp hi
  have hval := congrArg Fin.val heq
  rw [show (r.store e).cell i = r.cell i from rfl, cell_val (by omega)] at hval
  rw [used_eq] at hi
  split_ifs at hval hi <;> omega

theorem contents_advance (h : next r.writeIdx ≠ r.readIdx) :
    r.advance.contents = r.contents ++ [r.entries r.writeIdx] := by
  have hlt := r.used_lt
  have hcell : r.cell r.used = r.writeIdx := by
    refine Fin.ext ?_
    rw [cell_val hlt, used_eq]
    split_ifs <;> omega
  unfold contents
  rw [used_advance h, List.range_succ, List.map_append, List.map_singleton]
  exact congrArg (fun c => _ ++ [r.entries c]) hcell

theorem contents_push (e : E) (h : next r.writeIdx ≠ r.readIdx) : (r.push e).contents = r.contents ++ [e] := by
  rw [push, @contents_advance N _ E (r.store e) h, contents_store]
  simp [store]

theorem contents_pop (h : r.readIdx ≠ r.writeIdx) : r.contents = r.entries r.readIdx :: r.pop.contents := by
  have hlt := r.used_lt
  have hused := used_pop h
  unfold contents
  rw [hused, List.range_succ_eq_map, List.map_cons, List.map_map]
  congr 1
  · refine congrArg r.entries (Fin.ext ?_)
    rw [cell_val (NeZero.pos N), if_pos (by omega)]
    rfl
  · refine List.map_congr_left fun i hi => congrArg r.entries (Fin.ext ?_)
    have hi := List.mem_range.mp hi
    rw [cell_val (by omega), cell_val (by omega)]
    simp only [pop, next_val]
    split_ifs <;> omega

/-- What was taken is what the ring held first. -/
theorem drain_contents (k : ℕ) (r : Ring N E) : (drain k r).1 ++ (drain k r).2.contents = r.contents := by
  induction k generalizing r with
  | zero => rfl
  | succ k ih =>
    rw [drain]
    split_ifs with h
    · rfl
    · rw [contents_pop h, ← ih r.pop]
      rfl

theorem drain_length (k : ℕ) (r : Ring N E) : (drain k r).1.length = min k r.used := by
  induction k generalizing r with
  | zero => simp [drain]
  | succ k ih =>
    rw [drain]
    split_ifs with h
    · simp [used_eq_zero.mpr h]
    · have hused := used_pop h
      simp only [List.length_cons, ih]
      omega

/-- `N` rounds empty the ring. -/
theorem drain_all (r : Ring N E) : (drain N r).1 = r.contents ∧ (drain N r).2.contents = [] := by
  have hcontents := drain_contents N r
  have hlen := congrArg List.length hcontents
  have := r.used_lt
  rw [List.length_append, drain_length, length_contents r, Nat.min_eq_right this.le] at hlen
  have hnil : (drain N r).2.contents = [] := List.eq_nil_of_length_eq_zero (by omega)
  rw [hnil, List.append_nil] at hcontents
  exact ⟨hcontents, hnil⟩

theorem drain_writeIdx (k : ℕ) (r : Ring N E) : (drain k r).2.writeIdx = r.writeIdx := by
  induction k generalizing r with
  | zero => rfl
  | succ k ih =>
    rw [drain]
    split_ifs
    · rfl
    · exact ih r.pop

theorem drain_map (f : E → F) (k : ℕ) (r : Ring N E) :
    drain k (r.map f) = ((drain k r).1.map f, (drain k r).2.map f) := by
  induction k generalizing r with
  | zero => rfl
  | succ k ih =>
    rw [drain, drain]
    simp only [show (r.map f).readIdx = r.readIdx from rfl, show (r.map f).writeIdx = r.writeIdx from rfl]
    split_ifs
    · rfl
    · rw [show (r.map f).pop = r.pop.map f from rfl, ih]
      rfl

end Ring

end Tori
