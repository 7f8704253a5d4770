import Mathlib.Data.Nat.Bitwise
import Mathlib.Tactic

/-! Unsigned 64-bit arithmetic on natural numbers: values are below `2 ^ 64` and
every operation that may wrap says so with `u64`. -/

namespace Tori.Word

open Function

def u64 (x : ℕ) : ℕ := x % 2 ^ 64

def inc (x : ℕ) : ℕ := u64 (x + 1)

def dec (x : ℕ) : ℕ := u64 (x + 2 ^ 64 - 1)

def sub (x y : ℕ) : ℕ := u64 (x + (2 ^ 64 - u64 y))

/-- `(value + alignment - 1) & ~(alignment - 1)` -/
def alignUp (value alignment : ℕ) : ℕ :=
  u64 (value + alignment - 1) &&& (2 ^ 64 - 1 - (alignment - 1))

/-- `value & ~(alignment - 1)` -/
def alignDown (value alignment : ℕ) : ℕ := value &&& (2 ^ 64 - 1 - (alignment - 1))

theorem u64_lt (x : ℕ) : u64 x < 2 ^ 64 := Nat.mod_lt _ (by decide)

variable {x v k j : ℕ}

theorem u64_of_lt (h : x < 2 ^ 64) : u64 x = x := Nat.mod_eq_of_lt h

theorem inc_of_lt (h : x + 1 < 2 ^ 64) : inc x = x + 1 := u64_of_lt h

theorem dec_of_pos (h : 0 < x) (hlt : x < 2 ^ 64) : dec x = x - 1 := by
  unfold dec u64
  omega

theorem sub_of_le {y : ℕ} (h : y ≤ x) (hlt : x < 2 ^ 64) : sub x y = x - y := by
  unfold sub u64
  omega

/-- Clearing the low `k` bits rounds down to a multiple of `2 ^ k`. -/
theorem and_mask (x k : ℕ) (hx : x < 2 ^ 64) (hk : k ≤ 64) :
    x &&& (2 ^ 64 - 1 - (2 ^ k - 1)) = x / 2 ^ k * 2 ^ k := by
  have hmask : 2 ^ 64 - 1 - (2 ^ k - 1) = (2 ^ (64 - k) - 1) <<< k := by
    have h1 : 2 ^ (64 - k) * 2 ^ k = 2 ^ 64 := by rw [← pow_add, Nat.sub_add_cancel hk]
    have h2 : 0 < 2 ^ k := by positivity
    rw [Nat.shiftLeft_eq, Nat.sub_mul, h1]
    omega
  apply Nat.eq_of_testBit_eq
  intro i
  rw [hmask, ← Nat.shiftLeft_eq, ← Nat.shiftRight_eq_div_pow]
  simp only [Nat.testBit_and, Nat.testBit_shiftLeft, Nat.testBit_shiftRight,
    Nat.testBit_two_pow_sub_one]
  by_cases hi : k ≤ i
  · rw [Nat.add_sub_cancel' hi]
    by_cases h64 : i < 64
    · simp [hi, show i - k < 64 - k by omega]
    · have : x.testBit i = false :=
        Nat.testBit_lt_two_pow (lt_of_lt_of_le hx (Nat.pow_le_pow_right (by decide) (by omega)))
      simp [this]
  · simp [hi]

theorem alignDown_eq (k : ℕ) (hv : v < 2 ^ 64) (hk : k ≤ 64) :
    alignDown v (2 ^ k) = v / 2 ^ k * 2 ^ k := and_mask v k hv hk

theorem alignUp_eq (v k : ℕ) (hk : k ≤ 64) :
    alignUp v (2 ^ k) = u64 (v + 2 ^ k - 1) / 2 ^ k * 2 ^ k := and_mask _ k (u64_lt _) hk

theorem alignUp_even {a : ℕ} (hv : v % 2 = 0) (ha : 1 ≤ a) : alignUp v a % 2 = 0 := by
  have hiff := Nat.and_mod_two_eq_one (a := u64 (v + a - 1)) (b := 2 ^ 64 - 1 - (a - 1))
  unfold alignUp
  unfold u64 at *
  omega

theorem and_shift_ne_zero (w : BitVec 64) (hk : k < 64) :
    (w &&& (1#64 <<< k) != 0) = w.getLsbD k := by
  rw [← BitVec.twoPow_eq, BitVec.and_twoPow]
  cases h : w.getLsbD k with
  | false => simp
  | true =>
    have hne : BitVec.twoPow 64 k ≠ 0#64 := by
      intro h0
      have := congrArg (fun v => v.getLsbD k) h0
      simp [hk] at this
    simpa using hne

/-! ### Bitmaps of 64-bit words -/

/-- Bit `i` of a bitmap, as `words[i / 64] & (1 << i % 64)`. -/
def bitAt (words : ℕ → BitVec 64) (i : ℕ) : Bool := (words (i / 64) &&& (1#64 <<< (i % 64))) != 0#64

def setBit (words : ℕ → BitVec 64) (i : ℕ) : ℕ → BitVec 64 :=
  update words (i / 64) (words (i / 64) ||| (1#64 <<< (i % 64)))

def clearBit (words : ℕ → BitVec 64) (i : ℕ) : ℕ → BitVec 64 :=
  update words (i / 64) (words (i / 64) &&& ~~~(1#64 <<< (i % 64)))

theorem bitAt_eq (words : ℕ → BitVec 64) (i : ℕ) : bitAt words i = (words (i / 64)).getLsbD (i % 64) :=
  and_shift_ne_zero _ (Nat.mod_lt _ (by decide))

theorem bitAt_update {words : ℕ → BitVec 64} {i : ℕ} {w : BitVec 64} {b : Bool}
    (h : ∀ k < 64, w.getLsbD k = if k = i % 64 then b else (words (i / 64)).getLsbD k) (j : ℕ) :
    bitAt (update words (i / 64) w) j = if j = i then b else bitAt words j := by
  rw [bitAt_eq, bitAt_eq, update_apply]
  by_cases hw : j / 64 = i / 64
  · rw [if_pos hw, h _ (Nat.mod_lt _ (by decide)), hw]
    simp only [show j % 64 = i % 64 ↔ j = i by omega]
  · rw [if_neg hw, if_neg (by rintro rfl; exact hw rfl)]

theorem bitAt_setBit (words : ℕ → BitVec 64) (i : ℕ) :
    ∀ j, bitAt (setBit words i) j = if j = i then true else bitAt words j := by
  refine bitAt_update fun k hk => ?_
  rw [← BitVec.twoPow_eq, BitVec.getLsbD_or, BitVec.getLsbD_twoPow]
  by_cases hki : k = i % 64
  · simp [hki, Nat.mod_lt]
  · simp [hki, Ne.symm hki]

theorem bitAt_clearBit (words : ℕ → BitVec 64) (i : ℕ) :
    ∀ j, bitAt (clearBit words i) j = if j = i then false else bitAt words j := by
  refine bitAt_update fun k hk => ?_
  rw [← BitVec.twoPow_eq, BitVec.getLsbD_and, BitVec.getLsbD_not, BitVec.getLsbD_twoPow]
  by_cases hki : k = i % 64
  · simp [hki, Nat.mod_lt]
  · simp [hki, hk, Ne.symm hki]

end Tori.Word
