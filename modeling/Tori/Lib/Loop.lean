import Mathlib.Tactic

/-! Counted loops with explicit state. `forUp f n lo s` runs `f lo`, ..., `f (lo + n - 1)` in this order;
`forUpE` is the same loop with an early exit that keeps its own value; `forDown f n s` runs `f (n - 1)`, ...,
`f 0`; `findUp p n lo` is the first index satisfying `p`. `drain` empties a queue: it takes elements from the
front until there are none, at most `fuel` of them. -/

namespace Tori.Loop

variable {σ ε : Type}

def forUp (f : ℕ → σ → σ) : ℕ → ℕ → σ → σ
  | 0, _, s => s
  | n + 1, i, s => forUp f n (i + 1) (f i s)

def forUpE (f : ℕ → σ → Except ε σ) : ℕ → ℕ → σ → Except ε σ
  | 0, _, s => .ok s
  | n + 1, i, s =>
    match f i s with
    | .error e => .error e
    | .ok s' => forUpE f n (i + 1) s'

def forDown (f : ℕ → σ → σ) : ℕ → σ → σ
  | 0, s => s
  | n + 1, s => forDown f n (f n s)

def findUp (p : ℕ → Bool) : ℕ → ℕ → Option ℕ
  | 0, _ => none
  | n + 1, i => if p i then some i else findUp p n (i + 1)

def drain {α : Type} (front : σ → Option (α × σ)) (body : α → σ → Option σ) : ℕ → σ → Option σ
  | 0, _ => none
  | fuel + 1, s =>
    match front s with
    | none => some s
    | some (a, s) =>
      match body a s with
      | none => none
      | some s => drain front body fuel s

@[simp] theorem forUp_zero (f : ℕ → σ → σ) (i : ℕ) (s : σ) : forUp f 0 i s = s := rfl

theorem forUp_succ (f : ℕ → σ → σ) (n i : ℕ) (s : σ) :
    forUp f (n + 1) i s = forUp f n (i + 1) (f i s) := rfl

variable {P : ℕ → σ → Prop} {f : ℕ → σ → Except ε σ} {I : σ → Prop} {body : α → σ → Option σ} {front : σ → Option (α × σ)} {α : Type}

/-- The invariant rule: `P i` holds before iteration `i`. -/
theorem forUp_inv {f : ℕ → σ → σ} (n lo : ℕ) (s : σ)
    (step : ∀ i s, lo ≤ i → i < lo + n → P i s → P (i + 1) (f i s)) (h : P lo s) : P (lo + n) (forUp f n lo s) := by
  induction n generalizing lo s with
  | zero => exact h
  | succ n ih =>
    rw [forUp_succ, show lo + (n + 1) = lo + 1 + n by omega]
    exact ih (lo + 1) _ (fun i s h1 h2 => step i s (by omega) (by omega))
      (step lo s le_rfl (by omega) h)

theorem forUpE_inv (n lo : ℕ) (s s' : σ)
    (step : ∀ i s s', lo ≤ i → i < lo + n → P i s → f i s = .ok s' → P (i + 1) s')
    (h : P lo s) (hr : forUpE f n lo s = .ok s') : P (lo + n) s' := by
  induction n generalizing lo s with
  | zero =>
    cases hr
    exact h
  | succ n ih =>
    rw [forUpE] at hr
    cases hb : f lo s with
    | error e => simp [hb] at hr
    | ok s1 =>
      rw [hb] at hr
      rw [show lo + (n + 1) = lo + 1 + n by omega]
      exact ih (lo + 1) s1 (fun i s s' h1 h2 => step i s s' (by omega) (by omega))
        (step lo s s1 le_rfl (by omega) h hb) hr

/-- A loop that stops early has a last full iteration. -/
theorem forUpE_error {e : ε} {n lo : ℕ} {s : σ} (h : forUpE f n lo s = .error e) :
    ∃ k < n, ∃ s', forUpE f k lo s = .ok s' ∧ f (lo + k) s' = .error e := by
  induction n generalizing lo s with
  | zero => cases h
  | succ n ih =>
    rw [forUpE] at h
    cases hb : f lo s with
    | error e' =>
      rw [hb] at h
      exact ⟨0, Nat.succ_pos n, s, rfl, hb.trans h⟩
    | ok s1 =>
      rw [hb] at h
      obtain ⟨k, hk, s', hrun, hstop⟩ := ih h
      refine ⟨k + 1, Nat.succ_lt_succ hk, s', ?_, by rwa [← Nat.add_assoc, Nat.add_right_comm]⟩
      rw [forUpE, hb]
      exact hrun

/-- An error may be reported with its index. -/
theorem forUpE_mapError {ε' : Type} {g : ℕ → ε → ε'} {s s' : σ} {n lo : ℕ} :
    forUpE (fun i s => (f i s).mapError (g i)) n lo s = .ok s' ↔ forUpE f n lo s = .ok s' := by
  induction n generalizing lo s with
  | zero => simp [forUpE]
  | succ n ih =>
    rw [forUpE, forUpE]
    cases f lo s with
    | error e => simp [Except.mapError]
    | ok s₁ => exact ih

theorem findUp_eq_find? (p : ℕ → Bool) (n lo : ℕ) : findUp p n lo = (List.range' lo n).find? p := by
  induction n generalizing lo with
  | zero => rfl
  | succ n ih =>
    rw [findUp, List.range'_succ, List.find?_cons, ih]
    cases p lo <;> rfl

theorem findUp_some {p : ℕ → Bool} {n lo i : ℕ} (h : findUp p n lo = some i) : lo ≤ i ∧ i < lo + n ∧ p i = true := by
  rw [findUp_eq_find?] at h
  obtain ⟨h1, h2⟩ := List.mem_range'_1.mp (List.mem_of_find?_eq_some h)
  exact ⟨h1, h2, List.find?_some h⟩

/-- What every element keeps holds when the queue is empty. -/
theorem drain_inv (hstep : ∀ a s s₁ s', I s → front s = some (a, s₁) → body a s₁ = some s' → I s')
    {fuel : ℕ} {s s' : σ} (hI : I s) (h : drain front body fuel s = some s') : I s' ∧ front s' = none := by
  induction fuel generalizing s with
  | zero => cases h
  | succ fuel ih =>
    rw [drain] at h
    cases hf : front s with
    | none =>
      rw [hf] at h
      cases h
      exact ⟨hI, hf⟩
    | some r =>
      obtain ⟨a, s₁⟩ := r
      rw [hf] at h
      dsimp only at h
      cases hb : body a s₁ with
      | none => rw [hb] at h; cases h
      | some s₂ =>
        rw [hb] at h
        exact ih (hstep a s s₁ s₂ hI hf hb) h

/-- A loop whose rounds return and shorten the queue returns. -/
theorem drain_returns {μ : σ → ℕ}
    (hstep : ∀ a s s₁, I s → front s = some (a, s₁) → ∃ s', body a s₁ = some s' ∧ I s' ∧ μ s' < μ s)
    {fuel : ℕ} {s : σ} (hI : I s) (hμ : μ s < fuel) : ∃ s', drain front body fuel s = some s' ∧ I s' := by
  induction fuel generalizing s with
  | zero => exact absurd hμ (Nat.not_lt_zero _)
  | succ fuel ih =>
    rw [drain]
    cases hf : front s with
    | none => exact ⟨s, rfl, hI⟩
    | some r =>
      obtain ⟨a, s₁⟩ := r
      obtain ⟨s₂, hb, hI₂, hlt⟩ := hstep a s s₁ hI hf
      simp only [hb]
      exact ih hI₂ (by omega)

end Tori.Loop
