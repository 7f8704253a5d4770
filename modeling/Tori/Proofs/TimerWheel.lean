import Tori.Spec.Timer

/-! What the functions of the timer wheel do to the entry they handle, and what they leave alone: every function that is
given an entry that is in no list puts it into one list, and touches no other entry. -/

namespace Tori.Timer

open Word Loop Buckets

section Entry

variable {α : Type} {s s₁ s' : State α} {b c : Bucket} {e x : ℕ}

/-- Everything but the lists and the entries. -/
def State.regs (s : State α) : ℕ × ℕ × ℕ × Bool × ℕ × Bool :=
  (s.cursor, s.l1Cursor, s.tickCount, s.initialized, s.bspLapicId, s.locked)

/-- `s'` differs from `s` in the entry `e` and in calls of its callback. -/
structure Kept (e : ℕ) (s s' : State α) : Prop where
  lists : s'.lists = s.lists
  pool : ∀ x, x ≠ e → s'.pool x = s.pool x
  callback : ∀ a, (s'.pool e).callback = some a → (s.pool e).callback = some a
  regs : s'.regs = s.regs
  calls : ∃ l, s'.calls = s.calls ++ l ∧ ∀ a ∈ l, (s.pool e).callback = some a

/-- In addition, `e` is put at the end of a list. -/
def Handled (e : ℕ) (s s' : State α) : Prop := ∃ b s₁, Kept e s s₁ ∧ s' = pushBack b e s₁

theorem Kept.trans (h₁ : Kept e s s₁) (h₂ : Kept e s₁ s') : Kept e s s' := by
  obtain ⟨l₁, hl₁, ha₁⟩ := h₁.calls
  obtain ⟨l₂, hl₂, ha₂⟩ := h₂.calls
  refine ⟨h₂.lists.trans h₁.lists, fun x hx => (h₂.pool x hx).trans (h₁.pool x hx),
    fun a ha => h₁.callback a (h₂.callback a ha), h₂.regs.trans h₁.regs, l₁ ++ l₂, ?_, ?_⟩
  · rw [hl₂, hl₁, List.append_assoc]
  · intro a ha
    rcases List.mem_append.mp ha with ha | ha
    · exact ha₁ a ha
    · exact h₁.callback a (ha₂ a ha)

theorem Kept.handled (h₁ : Kept e s s₁) (h₂ : Handled e s₁ s') : Handled e s s' := by
  obtain ⟨b, s₂, hkept, rfl⟩ := h₂
  exact ⟨b, s₂, h₁.trans hkept, rfl⟩

theorem kept_setEntry {t : TimerEntry α} (ht : ∀ a, t.callback = some a → (s.pool e).callback = some a) :
    Kept e s (s.setEntry e t) := by
  refine ⟨rfl, fun x hx => Function.update_of_ne hx _ _, fun a ha => ht a ?_, rfl, [], (List.append_nil _).symm, ?_⟩
  · simpa [State.setEntry] using ha
  · simp

theorem runCallback_spec (h : runCallback e s = some s') :
    ∃ a, (s.pool e).callback = some a ∧ s' = { s with calls := s.calls ++ [a] } := by
  unfold runCallback at h
  split at h
  · exact nomatch h
  · next a ha => exact ⟨a, ha, (Option.some.inj h).symm⟩

theorem kept_runCallback (h : runCallback e s = some s') : Kept e s s' := by
  obtain ⟨a, ha, rfl⟩ := runCallback_spec h
  exact ⟨rfl, fun _ _ => rfl, fun _ hb => hb, rfl, [a], rfl, fun b hb => by rw [List.mem_singleton.mp hb, ha]⟩

theorem freeEntry_spec (h : freeEntry e s = some s') :
    s.locked = false ∧
      s' = pushBack .free e (s.setEntry e ⟨0, 0, none, (s.pool e).wheelLevel, (s.pool e).wheelSlot⟩) := by
  unfold freeEntry withLock at h
  dsimp only at h
  split at h
  · exact nomatch h
  · next hl =>
    have hl : s.locked = false := by simpa [State.setEntry] using hl
    refine ⟨hl, ?_⟩
    rw [← Option.some.inj h]
    simp only [pushBack, State.setEntry, hl]

theorem freeEntry_handled (h : freeEntry e s = some s') : Handled e s s' := by
  refine ⟨.free, _, kept_setEntry ?_, (freeEntry_spec h).2⟩
  simp

theorem insertLevel0_handled (e r : ℕ) (s : State α) : Handled e s (insertLevel0 e r s) := by
  refine ⟨_, _, kept_setEntry ?_, rfl⟩
  simp

theorem insertLevel1_handled (e r : ℕ) (s : State α) : Handled e s (insertLevel1 e r s) := by
  refine ⟨_, _, kept_setEntry ?_, rfl⟩
  simp

theorem rearmOrFree_handled {insert : ℕ → State α → Option (State α)}
    (hinsert : ∀ s s', insert e s = some s' → Handled e s s') (h : rearmOrFree insert e s = some s') :
    Handled e s s' := by
  unfold rearmOrFree at h
  split at h
  · refine Kept.handled (kept_setEntry ?_) (hinsert _ _ h)
    simp
  · exact freeEntry_handled h

theorem insertEntry_handled {fuel : ℕ} {s s' : State α} (h : insertEntry fuel e s = some s') : Handled e s s' := by
  induction fuel generalizing s s' with
  | zero => exact nomatch h
  | succ fuel ih =>
    rw [insertEntry] at h
    split_ifs at h
    · cases h
      exact insertLevel0_handled _ _ _
    · cases h
      exact insertLevel0_handled _ _ _
    · cases h
      exact insertLevel1_handled _ _ _
    · split at h
      · exact nomatch h
      · next hcall => exact (kept_runCallback hcall).handled (rearmOrFree_handled (fun _ _ => ih) h)

theorem fireEntry_handled {fuel : ℕ} (h : fireEntry fuel e s = some s') : Handled e s s' := by
  unfold fireEntry at h
  split at h
  · exact nomatch h
  · next hcall =>
    exact (kept_runCallback hcall).handled (rearmOrFree_handled (fun _ _ => insertEntry_handled) h)

theorem cascadeEntry_handled {fuel : ℕ} (h : cascadeEntry fuel e s = some s') : Handled e s s' := by
  unfold cascadeEntry at h
  dsimp only at h
  split_ifs at h
  · exact fireEntry_handled h
  · cases h
    exact insertLevel0_handled _ _ _
  · cases h
    exact insertLevel1_handled _ _ _

theorem popFront_spec (h : popFront b s = some (e, s')) :
    ∃ rest, s.lists b = e :: rest ∧ s' = { s with lists := Function.update s.lists b rest } := by
  unfold popFront at h
  split at h
  · exact nomatch h
  · next e' rest hb =>
    cases h
    exact ⟨rest, hb, rfl⟩

theorem popFront_none (h : popFront b s = none) : s.lists b = [] := by
  unfold popFront at h
  split at h
  · assumption
  · exact nomatch h

/-- An entry is taken from the front of the list `b` and handled. -/
def Moved (b : Bucket) (e : ℕ) (s s' : State α) : Prop := ∃ s₁, popFront b s = some (e, s₁) ∧ Handled e s₁ s'

namespace Moved

section

variable (h : Moved b e s s')
include h

theorem front : e ∈ s.lists b := by
  obtain ⟨_, hpop, -⟩ := h
  obtain ⟨rest, hb, -⟩ := popFront_spec hpop
  rw [hb]
  exact List.mem_cons_self

theorem lists (hap : Apart s.lists) :
    Apart s'.lists ∧ ∃ d, ∀ x c, x ∈ s'.lists c ↔ x ∈ s.lists c ∧ x ≠ e ∨ c = d ∧ x = e := by
  obtain ⟨_, hpop, d, s₂, hkept, rfl⟩ := h
  obtain ⟨rest, hb, rfl⟩ := popFront_spec hpop
  obtain ⟨hap', hout⟩ := hap.pop hb
  have hlists : (pushBack d e s₂).lists = push (Function.update s.lists b rest) d e := by
    simp only [pushBack, hkept.lists]
  rw [hlists]
  refine ⟨hap'.push hout d, d, fun x c => ?_⟩
  rw [mem_push, hap.mem_pop hb]

theorem pool (hx : x ≠ e) : s'.pool x = s.pool x := by
  obtain ⟨_, hpop, _, _, hkept, rfl⟩ := h
  obtain ⟨_, -, rfl⟩ := popFront_spec hpop
  exact hkept.pool x hx

theorem callback {a : α} (ha : (s'.pool x).callback = some a) : (s.pool x).callback = some a := by
  by_cases hx : x = e
  · subst hx
    obtain ⟨_, hpop, _, _, hkept, rfl⟩ := h
    obtain ⟨_, -, rfl⟩ := popFront_spec hpop
    exact hkept.callback a ha
  · rwa [h.pool hx] at ha

theorem regs : s'.regs = s.regs := by
  obtain ⟨_, hpop, _, _, hkept, rfl⟩ := h
  obtain ⟨_, -, rfl⟩ := popFront_spec hpop
  exact hkept.regs

theorem calls : ∃ l, s'.calls = s.calls ++ l ∧ ∀ a ∈ l, (s.pool e).callback = some a := by
  obtain ⟨_, hpop, _, _, hkept, rfl⟩ := h
  obtain ⟨_, -, rfl⟩ := popFront_spec hpop
  exact hkept.calls

theorem count [DecidableEq α] {a : α} (ha : (s.pool e).callback ≠ some a) : s'.calls.count a = s.calls.count a := by
  obtain ⟨l, hl, hcalls⟩ := h.calls
  rw [hl, List.count_append, List.count_eq_zero.mpr fun hmem => ha (hcalls a hmem), Nat.add_zero]

end

end Moved

end Entry

/-! ### Timers

The callback of an entry is the number of its timer. -/

variable {s s' : State ℕ} {b c : Bucket} {N i j e f x D : ℕ}

/-- No entry is in two lists, and no timer has two entries; the timers are those below `N`. -/
structure Tags (N : ℕ) (s : State ℕ) : Prop where
  apart : Apart s.lists
  lt : ∀ e i, (s.pool e).callback = some i → i < N
  unique : ∀ e f i, (s.pool e).callback = some i → (s.pool f).callback = some i → e = f

/-- The one-shot timer `i` waits for the deadline `D` in the list `b` and has not run. -/
structure Sits (s : State ℕ) (i e : ℕ) (b : Bucket) (D : ℕ) : Prop where
  mem : e ∈ s.lists b
  deadline : (s.pool e).deadlineTicks = D
  oneshot : (s.pool e).periodTicks = 0
  callback : (s.pool e).callback = some i
  quiet : s.calls.count i = 0

/-- No entry is left of timer `i`, which has run `k` times. -/
structure Gone (s : State ℕ) (i k : ℕ) : Prop where
  callback : ∀ e, (s.pool e).callback ≠ some i
  count : s.calls.count i = k

theorem Tags.moved (h : Tags N s) (hm : Moved b e s s') : Tags N s' where
  apart := (hm.lists h.apart).1
  lt x i hx := h.lt x i (hm.callback hx)
  unique x y i hx hy := h.unique x y i (hm.callback hx) (hm.callback hy)

theorem Sits.moved (h : Sits s i e b D) (htags : Tags N s) (hm : Moved c f s s') (hne : f ≠ e) :
    Sits s' i e b D := by
  obtain ⟨-, d, hmem⟩ := hm.lists htags.apart
  have hpool := hm.pool hne.symm
  refine ⟨(hmem e b).mpr (Or.inl ⟨h.mem, hne.symm⟩), hpool ▸ h.deadline, hpool ▸ h.oneshot, hpool ▸ h.callback, ?_⟩
  rw [hm.count fun hf => hne (htags.unique f e i hf h.callback), h.quiet]

theorem Sits.moved_other (h : Sits s i e b D) (htags : Tags N s) (hm : Moved c f s s') (hcb : c ≠ b) :
    Sits s' i e b D := by
  refine h.moved htags hm ?_
  rintro rfl
  exact hcb (htags.apart.once c b f hm.front h.mem)

theorem Gone.moved {k : ℕ} (h : Gone s i k) (hm : Moved c f s s') : Gone s' i k :=
  ⟨fun x hx => h.callback x (hm.callback hx), (hm.count (h.callback f)).trans h.count⟩

section Drain

variable {body : ℕ → State ℕ → Option (State ℕ)} {fuel : ℕ} (hbody : ∀ e s s', body e s = some s' → Handled e s s')

include hbody

/-- The rule for a loop that empties the list `b`. -/
theorem drain_rule {P : State ℕ → Prop}
    (hP : ∀ e s₁ s₂ s₃, Tags N s₁ → s₁.regs = s.regs → P s₁ → popFront b s₁ = some (e, s₂) → body e s₂ = some s₃ →
      Moved b e s₁ s₃ → P s₃)
    (htags : Tags N s) (hs : P s) (h : drain (popFront b) body fuel s = some s') :
    Tags N s' ∧ s'.regs = s.regs ∧ P s' ∧ s'.lists b = [] := by
  obtain ⟨⟨htags', hregs, hs'⟩, hempty⟩ := drain_inv
    (I := fun s₁ => Tags N s₁ ∧ s₁.regs = s.regs ∧ P s₁)
    (fun e s₁ s₂ s₃ hI hpop hrun => by
      obtain ⟨htags₁, hregs₁, hs₁⟩ := hI
      have hm : Moved b e s₁ s₃ := ⟨s₂, hpop, hbody e s₂ s₃ hrun⟩
      exact ⟨htags₁.moved hm, hm.regs.trans hregs₁, hP e s₁ s₂ s₃ htags₁ hregs₁ hs₁ hpop hrun hm⟩)
    ⟨htags, rfl, hs⟩ h
  exact ⟨htags', hregs, hs', popFront_none hempty⟩

/-- The loop ends if every round makes the list shorter. -/
theorem drain_ends {P : State ℕ → Prop} (htags : Tags N s) (hs : P s) (hfuel : (s.lists b).length < fuel)
    (hround : ∀ e s₁ s₂, Tags N s₁ → s₁.regs = s.regs → P s₁ → popFront b s₁ = some (e, s₂) →
      ∃ s₃, body e s₂ = some s₃ ∧ P s₃ ∧ (s₃.lists b).length < (s₁.lists b).length) :
    ∃ s', drain (popFront b) body fuel s = some s' ∧ Tags N s' ∧ s'.regs = s.regs ∧ P s' := by
  refine drain_returns (μ := fun s => (s.lists b).length) ?_
    ⟨htags, rfl, hs⟩ hfuel
  intro e s₁ s₂ hI hpop
  obtain ⟨htags₁, hregs₁, hs₁⟩ := hI
  obtain ⟨s₃, hrun, hs₃, hlen⟩ := hround e s₁ s₂ htags₁ hregs₁ hs₁ hpop
  have hm : Moved b e s₁ s₃ := ⟨s₂, hpop, hbody e s₂ s₃ hrun⟩
  exact ⟨s₃, hrun, ⟨htags₁.moved hm, hm.regs.trans hregs₁, hs₃⟩, hlen⟩

theorem drain_tags (htags : Tags N s) (h : drain (popFront b) body fuel s = some s') :
    Tags N s' ∧ s'.regs = s.regs := by
  obtain ⟨htags', hregs, -⟩ :=
    drain_rule hbody (fun _ _ _ _ _ _ _ _ _ _ => trivial) htags trivial h
  exact ⟨htags', hregs⟩

theorem drain_sits (htags : Tags N s) (h : drain (popFront c) body fuel s = some s') (hcb : c ≠ b)
    (hs : Sits s i e b D) : Sits s' i e b D :=
  (drain_rule hbody (P := fun s => Sits s i e b D) (fun _ _ _ _ ht _ hs₁ _ _ hm => hs₁.moved_other ht hm hcb)
    htags hs h).2.2.1

theorem drain_gone {k : ℕ} (htags : Tags N s) (h : drain (popFront c) body fuel s = some s') (hs : Gone s i k) :
    Gone s' i k :=
  (drain_rule hbody (P := fun s => Gone s i k) (fun _ _ _ _ _ _ hs₁ _ _ hm => hs₁.moved hm) htags hs h).2.2.1

theorem drain_calls (htags : Tags N s) (h : drain (popFront b) body fuel s = some s') (hs : ∀ a ∈ s.calls, a < N) :
    ∀ a ∈ s'.calls, a < N := by
  refine (drain_rule hbody (P := fun s => ∀ a ∈ s.calls, a < N) ?_ htags hs h).2.2.1
  intro f s₁ s₂ s₃ htags₁ _ hs₁ _ _ hm a ha
  obtain ⟨l, hl, hcall⟩ := hm.calls
  rw [hl, List.mem_append] at ha
  rcases ha with ha | ha
  · exact hs₁ a ha
  · exact htags₁.lt f a (hcall a ha)

end Drain

theorem fireEntry_oneshot {fuel : ℕ} (hcall : (s.pool e).callback = some i) (hone : (s.pool e).periodTicks = 0)
    (h : fireEntry fuel e s = some s') :
    s'.calls = s.calls ++ [i] ∧ (s'.pool e).callback = none ∧ s'.lists = push s.lists .free e := by
  unfold fireEntry runCallback rearmOrFree at h
  simp only [hcall, hone, lt_irrefl, if_false] at h
  obtain ⟨-, rfl⟩ := freeEntry_spec h
  exact ⟨rfl, by simp [pushBack, State.setEntry], rfl⟩

end Tori.Timer
