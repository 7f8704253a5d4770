import Tori.Lib.Loop

/-! A byte-addressed memory with little-endian 64-bit words at any address, and copying byte by byte. -/

namespace Tori

open Function Loop

abbrev Mem : Type := ℕ → BitVec 8

namespace Mem

def load64 (m : Mem) (a : ℕ) : ℕ :=
  (m a).toNat + 2 ^ 8 * (m (a + 1)).toNat + 2 ^ 16 * (m (a + 2)).toNat +
    2 ^ 24 * (m (a + 3)).toNat + 2 ^ 32 * (m (a + 4)).toNat + 2 ^ 40 * (m (a + 5)).toNat +
    2 ^ 48 * (m (a + 6)).toNat + 2 ^ 56 * (m (a + 7)).toNat

def store64 (m : Mem) (a v : ℕ) : Mem := fun x =>
  if a ≤ x ∧ x < a + 8 then BitVec.ofNat 8 (v / 256 ^ (x - a)) else m x

def store8 (m : Mem) (a : ℕ) (b : BitVec 8) : Mem := update m a b

theorem load64_lt (m : Mem) (a : ℕ) : load64 m a < 2 ^ 64 := by
  unfold load64
  omega

theorem load64_congr {m m' : Mem} {a : ℕ} (h : ∀ x, a ≤ x → x < a + 8 → m' x = m x) :
    load64 m' a = load64 m a := by
  unfold load64
  rw [h a (by omega) (by omega), h (a + 1) (by omega) (by omega), h (a + 2) (by omega) (by omega),
    h (a + 3) (by omega) (by omega), h (a + 4) (by omega) (by omega),
    h (a + 5) (by omega) (by omega), h (a + 6) (by omega) (by omega),
    h (a + 7) (by omega) (by omega)]

theorem store64_outside (m : Mem) {a v x : ℕ} (h : x < a ∨ a + 8 ≤ x) : store64 m a v x = m x := by
  unfold store64
  rw [if_neg (by omega)]

theorem store64_byte (m : Mem) (a v : ℕ) {k : ℕ} (hk : k < 8) :
    (store64 m a v (a + k)).toNat = v / 256 ^ k % 256 := by
  unfold store64
  rw [if_pos (by omega), Nat.add_sub_cancel_left, BitVec.toNat_ofNat]

theorem load64_store64 (m : Mem) (a : ℕ) {v : ℕ} (hv : v < 2 ^ 64) :
    load64 (store64 m a v) a = v := by
  have h0 := store64_byte m a v (k := 0) (by decide)
  rw [Nat.add_zero] at h0
  unfold load64
  rw [h0, store64_byte m a v (by decide), store64_byte m a v (by decide),
    store64_byte m a v (by decide), store64_byte m a v (by decide),
    store64_byte m a v (by decide), store64_byte m a v (by decide),
    store64_byte m a v (by decide)]
  omega

theorem load64_store64_apart (m : Mem) {a b v : ℕ} (h : b + 8 ≤ a ∨ a + 8 ≤ b) :
    load64 (store64 m a v) b = load64 m b :=
  load64_congr fun x h1 h2 => store64_outside m (by omega)

/-- The bytes of a list, stored one after the other. -/
def storeBytes (m : Mem) (a : ℕ) : List (BitVec 8) → Mem
  | [] => m
  | b :: bs => storeBytes (m.store8 a b) (a + 1) bs

theorem storeBytes_outside (bs : List (BitVec 8)) (m : Mem) {a x : ℕ} (h : x < a ∨ a + bs.length ≤ x) :
    storeBytes m a bs x = m x := by
  induction bs generalizing m a with
  | nil => rfl
  | cons b bs ih =>
    rw [List.length_cons] at h
    rw [storeBytes, ih _ (by omega)]
    exact update_of_ne (by omega) _ _

theorem storeBytes_at (bs : List (BitVec 8)) (m : Mem) (a : ℕ) {i : ℕ} (h : i < bs.length) :
    storeBytes m a bs (a + i) = bs[i] := by
  induction bs generalizing m a i with
  | nil => exact absurd h (by simp)
  | cons b bs ih =>
    rw [storeBytes]
    cases i with
    | zero =>
      rw [storeBytes_outside bs _ (.inl (by omega))]
      exact update_self _ _ _
    | succ i =>
      rw [show a + (i + 1) = a + 1 + i by omega]
      exact ih _ _ (by simpa using h)

theorem load64_le_succ (m : Mem) (a : ℕ) : load64 m a ≤ 255 + 256 * load64 m (a + 1) := by
  unfold load64
  simp only [Nat.add_assoc, Nat.reduceAdd]
  omega

/-! ### Copying -/

theorem store8_apply (m : Mem) (a : ℕ) (b : BitVec 8) (x : ℕ) : store8 m a b x = if x = a then b else m x :=
  update_apply m a b x

/-- Upwards no byte is overwritten before it is read if the destination starts below the source, or after its end. -/
theorem forUp_copy {dst src : ℕ} (n lo : ℕ) (m : Mem) (x : ℕ) (h : dst ≤ src ∨ src + n ≤ dst) :
    forUp (fun i m => store8 m (dst + i) (m (src + i))) n lo m x =
      if dst + lo ≤ x ∧ x < dst + (lo + n) then m (src + (x - dst)) else m x := by
  induction n generalizing lo m with
  | zero => rw [forUp_zero, if_neg (by omega)]
  | succ n ih =>
    rw [forUp_succ, ih _ _ (by omega), store8_apply, store8_apply]
    by_cases hx : x = dst + lo
    · rw [if_neg (by omega), if_pos hx, if_pos (by omega)]
      congr 1
      omega
    · rw [if_neg hx]
      by_cases hin : dst + (lo + 1) ≤ x ∧ x < dst + (lo + 1 + n)
      · rw [if_pos hin, if_neg (by omega), if_pos (by omega)]
      · rw [if_neg hin, if_neg (by omega)]

theorem forDown_copy {dst src : ℕ} (n : ℕ) (m : Mem) (x : ℕ) (h : src ≤ dst) :
    forDown (fun i m => store8 m (dst + i) (m (src + i))) n m x =
      if dst ≤ x ∧ x < dst + n then m (src + (x - dst)) else m x := by
  induction n generalizing m with
  | zero => exact (if_neg (by omega)).symm
  | succ n ih =>
    rw [forDown, ih, store8_apply, store8_apply]
    by_cases hx : x = dst + n
    · rw [if_neg (by omega), if_pos hx, if_pos (by omega)]
      congr 1
      omega
    · rw [if_neg hx]
      by_cases hin : dst ≤ x ∧ x < dst + n
      · rw [if_pos hin, if_neg (by omega), if_pos (by omega)]
      · rw [if_neg hin, if_neg (by omega)]

end Mem

end Tori
