import Mathlib.Logic.Function.Basic
import Mathlib.Tactic

/-! Threads that share a state. Each thread has a local state; `step a l g` is what the atomic operation `a` does to the
local state `l` of the thread that performs it and to the shared state `g`. Every interleaving of the operations whose
steps meet `ok` is a run. -/

namespace Tori.Threads

scoped instance neZeroTwo : NeZero 2 := ⟨by decide⟩

variable {ι L G A : Type} [DecidableEq ι]

structure Config (ι L G : Type) where
  loc : ι → L
  shared : G

/-- Thread `t` performs `a`; `none` where it cannot. -/
def act (step : A → L → G → Option (L × G)) (t : ι) (a : A) (c : Config ι L G) : Option (Config ι L G) :=
  (step a (c.loc t) c.shared).map fun r => ⟨Function.update c.loc t r.1, r.2⟩

inductive Run (step : A → L → G → Option (L × G)) (ok : Config ι L G → ι → A → Prop) (c₀ : Config ι L G) :
    Config ι L G → Prop
  | start : Run step ok c₀ c₀
  | next {c d : Config ι L G} {t : ι} {a : A} (hrun : Run step ok c₀ c) (hok : ok c t a) (hact : act step t a c = some d) :
      Run step ok c₀ d

variable {step : A → L → G → Option (L × G)} {ok : Config ι L G → ι → A → Prop} {c₀ c d e : Config ι L G} {t : ι} {a : A}

theorem act_eq_some : act step t a c = some d ↔
    ∃ l g, step a (c.loc t) c.shared = some (l, g) ∧ d = ⟨Function.update c.loc t l, g⟩ := by
  unfold act
  constructor
  · intro h
    obtain ⟨⟨l, g⟩, hstep, rfl⟩ := Option.map_eq_some_iff.mp h
    exact ⟨l, g, hstep, rfl⟩
  · rintro ⟨l, g, hstep, rfl⟩
    rw [hstep]
    rfl

theorem Run.trans (h : Run step ok c d) (h' : Run step ok d e) : Run step ok c e := by
  induction h' with
  | start => exact h
  | next _ hok hact ih => exact .next ih hok hact

theorem Run.single (hok : ok c t a) (hact : act step t a c = some d) : Run step ok c d := .next .start hok hact

theorem Run.inv {I : Config ι L G → Prop} (hstep : ∀ c d t a, I c → ok c t a → act step t a c = some d → I d)
    (h : Run step ok c₀ c) (h₀ : I c₀) : I c := by
  induction h with
  | start => exact h₀
  | next _ hok hact ih => exact hstep _ _ _ _ ih hok hact

/-- A measure that no step lowers where the invariant holds. -/
theorem Run.mono {I : Config ι L G → Prop} {f : Config ι L G → ℕ}
    (hstep : ∀ c d t a, I c → ok c t a → act step t a c = some d → I d)
    (hle : ∀ c d t a, I c → ok c t a → act step t a c = some d → f c ≤ f d) (h : Run step ok c₀ c) (h₀ : I c₀) :
    f c₀ ≤ f c := by
  induction h with
  | start => exact le_rfl
  | next hrun hok hact ih => exact ih.trans (hle _ _ _ _ (hrun.inv hstep h₀) hok hact)

/-- Perform a schedule. -/
def exec (step : A → L → G → Option (L × G)) (ok : Config ι L G → ι → A → Prop) [∀ c t a, Decidable (ok c t a)] :
    List (ι × A) → Config ι L G → Option (Config ι L G)
  | [], c => some c
  | (t, a) :: sched, c => if ok c t a then (act step t a c).bind (exec step ok sched) else none

theorem run_of_exec [∀ c t a, Decidable (ok c t a)] {sched : List (ι × A)} (h : exec step ok sched c = some d) :
    Run step ok c d := by
  induction sched generalizing c with
  | nil =>
    cases h
    exact .start
  | cons x sched ih =>
    rw [exec] at h
    split_ifs at h with hok
    obtain ⟨e, hact, hrest⟩ := Option.bind_eq_some_iff.mp h
    exact (Run.single hok hact).trans (ih hrest)

end Tori.Threads
