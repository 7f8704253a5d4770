import Tori.Spec.Seqlock

/-! Which reads a seqlock accepts. `write_begin` exchanges whatever value it finds, odd or even, so two writers that
overlap leave an even counter while both are inside; while writers do not overlap, an odd counter means a writer. -/

namespace Tori.Seqlock

open Threads Function

variable {D ι : Type} [DecidableEq ι] {c d e c₁ c₂ c₃ c₄ : Config ι Loc (Shared D)} {t : ι} {a : Act D} {l l' : Loc}
  {g g' : Shared D} {s : ℕ}

/-- What one operation does. -/
inductive Effect (g : Shared D) : Act D → Loc → Loc → Shared D → Prop
  | quiet {a : Act D} {l l' : Loc} (hl : ¬l.Inside) (hl' : ¬l'.Inside) : Effect g a l l' g
  | enter : Effect g .compareExchange (.exchange g.seq) .writing { g with seq := g.seq + 1 }
  | store (f : D → D) : Effect g (.storeData f) .writing .writing { g with data := f g.data }
  | leave : Effect g .loadSeq .writing (.writeEnd g.seq) g
  | left (s : ℕ) : Effect g .storeSeq (.writeEnd s) .idle { g with seq := s + 1 }

theorem step_effect (h : step a l g = some (l', g')) : Effect g a l l' g' := by
  revert h
  fun_cases step a l g <;> intro h <;> cases h
  case case5 =>
    refine .quiet not_false ?_
    split_ifs <;> exact not_false
  case case9 => exact .enter
  case case11 f => exact .store f
  case case12 => exact .leave
  case case13 s => exact .left s
  all_goals exact .quiet not_false not_false

/-- At most one writer is inside, the counter is odd exactly while one is, and a store of `write_end` adds one. -/
structure Inv (c : Config ι Loc (Shared D)) : Prop where
  one : ∀ w w', (c.loc w).Inside → (c.loc w').Inside → w = w'
  odd : c.shared.seq % 2 = 1 ↔ ∃ w, (c.loc w).Inside
  ending : ∀ w s, c.loc w = .writeEnd s → s = c.shared.seq

omit [DecidableEq ι] in
theorem inv_start (data : D) : Inv (start ι data) where
  one := fun _ _ h => h.elim
  odd := ⟨fun h => absurd h (Nat.zero_ne_one), fun ⟨_, h⟩ => h.elim⟩
  ending := fun _ _ h => nomatch h

theorem inside_update {loc : ι → Loc} {w : ι} :
    (update loc t l w).Inside ↔ (w = t ∧ l.Inside) ∨ (w ≠ t ∧ (loc w).Inside) := by
  by_cases hw : w = t
  · subst hw
    simp
  · simp [hw]

theorem ending_update {loc : ι → Loc} {w : ι} (h : update loc t l w = .writeEnd s) :
    (w = t ∧ l = .writeEnd s) ∨ loc w = .writeEnd s := by
  by_cases hw : w = t
  · subst hw
    rw [update_self] at h
    exact .inl ⟨rfl, h⟩
  · rw [update_of_ne hw] at h
    exact .inr h

/-- A thread that stays inside, or stays outside, changes nothing of the invariant but its own entry. -/
theorem Inv.same (hc : Inv c) (hin : l.Inside ↔ (c.loc t).Inside) (hend : ∀ s, l = .writeEnd s → s = g.seq)
    (hseq : g.seq = c.shared.seq) : Inv (⟨update c.loc t l, g⟩ : Config ι Loc (Shared D)) := by
  have hsame : ∀ w, (update c.loc t l w).Inside ↔ (c.loc w).Inside := by
    intro w
    rw [inside_update]
    by_cases hw : w = t
    · subst hw
      simp [hin]
    · simp [hw]
  refine ⟨fun w w' h h' => hc.one w w' ((hsame w).mp h) ((hsame w').mp h'), ?_, fun w s h => ?_⟩
  · simp only [hsame, hseq]
    exact hc.odd
  · rcases ending_update h with ⟨-, hl⟩ | hw
    · exact hend s hl
    · exact (hc.ending w s hw).trans hseq.symm

theorem Inv.enter (hc : Inv c) (hnone : ∀ w, ¬(c.loc w).Inside) : Inv
    (⟨update c.loc t .writing, { c.shared with seq := c.shared.seq + 1 }⟩ : Config ι Loc (Shared D)) := by
  have honly : ∀ w, (update c.loc t .writing w).Inside ↔ w = t := by
    intro w
    rw [inside_update]
    simp only [hnone w, and_false, or_false]
    exact and_iff_left trivial
  have heven : ¬c.shared.seq % 2 = 1 := fun h => (hc.odd.mp h).elim hnone
  refine ⟨fun w w' h h' => ((honly w).mp h).trans ((honly w').mp h').symm, ?_, fun w s h => ?_⟩
  · simp only [honly]
    exact iff_of_true (by omega) ⟨t, rfl⟩
  · rcases ending_update h with ⟨-, hl⟩ | hw
    · cases hl
    · exact absurd (hw ▸ trivial : (c.loc w).Inside) (hnone w)

theorem Inv.left (hc : Inv c) (hl : c.loc t = .writeEnd s) : Inv
    (⟨update c.loc t .idle, { c.shared with seq := s + 1 }⟩ : Config ι Loc (Shared D)) := by
  have hin : (c.loc t).Inside := hl ▸ trivial
  have hnone : ∀ w, ¬(update c.loc t .idle w).Inside := by
    intro w
    rw [inside_update]
    rintro (⟨-, h⟩ | ⟨hw, h⟩)
    · exact h
    · exact hw (hc.one w t h hin)
  have hs := hc.ending t s hl
  have hodd := hc.odd.mpr ⟨t, hin⟩
  refine ⟨fun w _ h => absurd h (hnone w), ?_, fun w s' h => ?_⟩
  · exact iff_of_false (by dsimp only; omega) (fun ⟨w, h⟩ => hnone w h)
  · have hw := hnone w
    rw [show update c.loc t .idle w = .writeEnd s' from h] at hw
    exact absurd trivial hw

/-- A step that lets no second writer in keeps the invariant, does not lower the counter, and stores to the data only
from inside. -/
theorem act_spec (hc : Inv c) (hok : Serial c t a) (hact : act step t a c = some d) :
    Inv d ∧ c.shared.seq ≤ d.shared.seq ∧ (¬(c.loc t).Inside → d.shared.data = c.shared.data) := by
  obtain ⟨l', g', hstep, rfl⟩ := act_eq_some.mp hact
  have heff := step_effect hstep
  generalize hl : c.loc t = l at heff
  cases heff with
  | quiet hout hout' =>
    exact ⟨hc.same (by rw [hl]; exact iff_of_false hout' hout) (fun s h => absurd (h ▸ trivial) hout') rfl, le_rfl,
      fun _ => rfl⟩
  | enter => exact ⟨hc.enter (hok hl), Nat.le_succ _, fun _ => rfl⟩
  | store f =>
    exact ⟨hc.same (by rw [hl]) (fun s h => nomatch h) rfl, le_rfl, fun h => absurd trivial h⟩
  | leave =>
    refine ⟨hc.same (by rw [hl]; exact Iff.rfl) (fun s h => ?_) rfl, le_rfl, fun _ => rfl⟩
    cases h
    rfl
  | left s =>
    have hs := hc.ending t s hl
    exact ⟨hc.left hl, by dsimp only; omega, fun _ => rfl⟩

theorem readBegin_even (hact : act step t a c = some d) (hloc : c.loc t = .readBegin) (hd : d.loc t = .reading s) :
    d.shared.seq = s ∧ s % 2 = 0 := by
  obtain ⟨l', g', hstep, rfl⟩ := act_eq_some.mp hact
  rw [hloc] at hstep
  simp only [update_self] at hd
  subst hd
  cases a <;> simp only [step, Option.some.injEq, reduceCtorEq, Prod.mk.injEq] at hstep
  obtain ⟨h, rfl⟩ := hstep
  split_ifs at h with heven
  cases h
  exact ⟨rfl, heven⟩

theorem readRetry_accepts (hact : act step t .readRetry c = some d) (hd : d.loc t = .retried false)
    (hloc : c.loc t = .reading s) : c.shared.seq = s := by
  obtain ⟨l', g', hstep, rfl⟩ := act_eq_some.mp hact
  rw [hloc] at hstep
  simp only [update_self] at hd
  subst hd
  have hboth : c.shared.seq = s ∧ c.shared = g' := by simpa [step] using hstep
  exact hboth.1

theorem Inv.run (hc : Inv c) (h : Run step Serial c d) : Inv d ∧ c.shared.seq ≤ d.shared.seq :=
  ⟨h.inv (fun _ _ _ _ hi hok hact => (act_spec hi hok hact).1) hc,
    h.mono (fun _ _ _ _ hi hok hact => (act_spec hi hok hact).1) (fun _ _ _ _ hi hok hact => (act_spec hi hok hact).2.1) hc⟩

section

variable (hc : Inv c) (heven : c.shared.seq % 2 = 0) (h : Run step Serial c d) (h' : Run step Serial d e)
  (hseq : e.shared.seq = c.shared.seq)
include hc heven h h' hseq

/-- A counter that is even and the same at both ends of a run is the same throughout. -/
theorem Inv.no_writer (w : ι) : ¬(d.loc w).Inside := by
  obtain ⟨hd, hle⟩ := hc.run h
  obtain ⟨-, hle'⟩ := hd.run h'
  intro hw
  have hodd := hd.odd.mpr ⟨w, hw⟩
  omega

theorem Inv.same_data : d.shared.data = c.shared.data := by
  induction h with
  | start => rfl
  | next hrun hok hact ih =>
    have hfrom := (Run.single hok hact).trans h'
    have hout := hc.no_writer heven hrun hfrom hseq
    exact ((act_spec (hc.run hrun).1 hok hact).2.2 (hout _)).trans (ih hfrom)

end

omit [DecidableEq ι] in
theorem serial_of_readBegin (h : c.loc t = .readBegin) : Serial c t a := by
  cases a with
  | compareExchange => exact fun hx => absurd (h.symm.trans hx) (by simp)
  | _ => trivial

/-- From `read_begin` to an accepting `read_retry` no writer is inside and the data stands still, in every run in which
no writer enters while another is inside. -/
theorem accepted_read_untorn (data : D) (h₁ : Run step Serial (start ι data) c₁) (hspin : c₁.loc t = .readBegin)
    (hbegin : act step t a c₁ = some c₂) (hreading : c₂.loc t = .reading s) (h₂ : Run step Serial c₂ d)
    (h₃ : Run step Serial d c₃) (hstill : c₃.loc t = .reading s) (hretry : act step t .readRetry c₃ = some c₄)
    (haccept : c₄.loc t = .retried false) :
    (∀ w, ¬(d.loc w).Inside) ∧ d.shared.data = c₂.shared.data := by
  have hc₁ := ((inv_start data).run h₁).1
  have hc₂ := (act_spec hc₁ (serial_of_readBegin hspin) hbegin).1
  obtain ⟨hs, heven⟩ := readBegin_even hbegin hspin hreading
  have hseq : c₃.shared.seq = c₂.shared.seq := (readRetry_accepts hretry haccept hstill).trans hs.symm
  rw [← hs] at heven
  exact ⟨hc₂.no_writer heven h₂ h₃ hseq, hc₂.same_data heven h₂ h₃ hseq⟩

/-! ### One writer, two writers -/

instance [Fintype ι] (c : Config ι Loc (Shared D)) (t : ι) (a : Act D) : Decidable (Serial c t a) := by
  cases a <;> unfold Serial <;> infer_instance

/-- Thread 1 writes 7 and is done; thread 0 calls `read_begin`. -/
def writeThenRead : List (Fin 2 × Act ℕ) :=
  [(1, .write), (1, .load), (1, .compareExchange), (1, .storeData fun _ => 7), (1, .loadSeq), (1, .storeSeq), (0, .read)]

def written : Config (Fin 2) Loc (Shared ℕ) := (exec step Serial writeThenRead (start (Fin 2) 0)).get (by decide)

def reader : Config (Fin 2) Loc (Shared ℕ) := (act step 0 .load written).get (by decide)

def loaded : Config (Fin 2) Loc (Shared ℕ) := (act step 0 .loadData reader).get (by decide)

/-- The read is accepted, and finds no writer inside and the data as it was. -/
theorem read_after_write_untorn :
    (act step 0 .readRetry loaded).map (fun c => c.loc 0) = some (.retried false) ∧
    (∀ w, ¬(loaded.loc w).Inside) ∧ loaded.shared.data = reader.shared.data := by
  have haccept : (act step 0 .readRetry loaded).map (fun c => c.loc 0) = some (.retried false) := by decide
  obtain ⟨c₄, hretry, hlast⟩ := Option.map_eq_some_iff.mp haccept
  refine ⟨haccept, ?_⟩
  exact accepted_read_untorn (s := 2) 0 (run_of_exec (Option.some_get _).symm) (by decide)
    (show act step 0 .load written = some reader from (Option.some_get _).symm) (by decide)
    (.single (a := .loadData) trivial (Option.some_get _).symm) .start (by decide) hretry hlast

/-- Threads 0 and 1 enter the lock, one after the other; thread 2 calls `read_begin`. -/
def overlap : List (Fin 3 × Act ℕ) :=
  [(0, .write), (0, .load), (0, .compareExchange), (1, .write), (1, .load), (1, .compareExchange), (2, .read)]

def overlapped : Config (Fin 3) Loc (Shared ℕ) :=
  (exec step (fun _ _ _ => True) overlap (start (Fin 3) 0)).get (by decide)

def begun : Config (Fin 3) Loc (Shared ℕ) := (act step 2 .load overlapped).get (by decide)

def stored : Config (Fin 3) Loc (Shared ℕ) := (act step 0 (.storeData fun _ => 7) begun).get (by decide)

/-- Thread 2 has its read accepted while both writers are inside, and thread 0 stored to the data meanwhile. -/
theorem two_writers_torn :
    Run step (fun _ _ _ => True) (start (Fin 3) 0) overlapped ∧ overlapped.loc 2 = .readBegin ∧
    act step 2 .load overlapped = some begun ∧ begun.loc 2 = .reading 2 ∧
    act step 0 (.storeData fun _ => 7) begun = some stored ∧
    stored.loc 0 = .writing ∧ stored.loc 1 = .writing ∧ begun.shared.data = 0 ∧ stored.shared.data = 7 ∧
    (act step 2 .readRetry stored).map (fun c => c.loc 2) = some (.retried false) := by
  refine ⟨run_of_exec (Option.some_get _).symm, by decide, (Option.some_get _).symm, by decide, (Option.some_get _).symm,
    by decide, by decide, by decide, by decide, by decide⟩

end Tori.Seqlock
