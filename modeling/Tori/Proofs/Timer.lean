import Tori.Proofs.TimerWheel

/-! When the one-shot timers of a run fire. A level-0 bucket is drained in the `tick()` call after the one that reaches
its deadlines. A level-1 bucket `k` is cascaded when the tick count is `256 * (k + 1)` modulo 65536, whatever the tick
count was when the timer was put there. -/

namespace Tori.Timer

open Word Loop Buckets Function

variable {s s' s₁ : State ℕ} {m m' : Machine} {c : Creation} {b : Bucket} {fuel lapicId i e n r D : ℕ}

/-! ### Deadlines -/

namespace Creation

theorem InReach.now_eq (h : c.InReach) (hlt : c.deadline < 2 ^ 64) (hborn : c.born ≤ n) (hn : n ≤ c.deadlineTick) :
    u64 n + (c.deadlineTick - n) = c.deadline := by
  obtain ⟨-, hfuture, -⟩ := h
  unfold deadlineTick time u64 at *
  omega

theorem InReach.reach (h : c.InReach) : c.born < c.deadlineTick ∧ c.deadlineTick ≤ c.born + 65535 := by
  obtain ⟨-, hfuture, hnear⟩ := h
  unfold deadlineTick
  omega

theorem InReach.onTime_iff (h : c.InReach) : c.OnTime ↔
    c.born + 256 ≤ c.deadlineTick ∧ c.deadlineTick % 65536 = 256 * ((c.deadlineTick - c.born) / 256) := by
  obtain ⟨-, hfuture, hnear⟩ := h
  unfold deadlineTick time u64 at *
  constructor
  · rintro ⟨hfar, haligned, hslot⟩
    unfold time u64 at hfar hslot
    omega
  · rintro ⟨hfar, hslot⟩
    exact ⟨by unfold time u64; omega, by omega, by unfold time u64; omega⟩

end Creation

/-! ### Places in the wheel -/

/-- Where an unfired timer can be after `n` calls of `tick()`. -/
inductive Place (c : Creation) (n : ℕ) : Bucket → Prop
  | level0 (hnear : c.deadlineTick < n + 256) (hlate : ¬ c.OnTime) : Place c n (.level0 (c.deadlineTick % 256))
  | level1 {k : ℕ} (hk : k < 255) (hnear : c.deadlineTick ≤ n + 65535)
      (hslot : c.deadlineTick % 65536 = 256 * (k + 1) ↔ c.OnTime) : Place c n (.level1 k)

theorem Place.mono (h : Place c n b) : Place c (n + 1) b := by
  cases h with
  | level0 hnear hlate => exact .level0 (by omega) hlate
  | level1 hk hnear hslot => exact .level1 hk (by omega) hslot

def Waiting (s : State ℕ) (n i : ℕ) (c : Creation) : Prop := ∃ e b, Sits s i e b c.deadline ∧ Place c n b

/-- What `insert_entry` and `cascade` do with an entry whose deadline is `r` ticks away. -/
def place (e r : ℕ) (s : State ℕ) : State ℕ := if r < 256 then insertLevel0 e r s else insertLevel1 e r s

theorem insertEntry_place (fuel : ℕ) (hlt : remainingTicks e s < 65536) :
    insertEntry (fuel + 1) e s = some (place e (max (remainingTicks e s) 1) s) := by
  rw [insertEntry]
  generalize remainingTicks e s = r at hlt
  unfold place bucketCount
  by_cases hnear : r < 256
  · rw [if_pos hnear, if_pos (show max r 1 < 256 by omega)]
    split_ifs with hr
    · rw [hr]
      rfl
    · rw [max_eq_left (by omega)]
  · rw [if_neg hnear, if_pos hlt, if_neg (show ¬ max r 1 < 256 by omega), max_eq_left (by omega)]

theorem cascadeEntry_place (fuel : ℕ) (hr : remainingTicks e s = r) (hpos : 0 < r) :
    cascadeEntry fuel e s = some (place e r s) := by
  unfold cascadeEntry place
  simp only [hr, bucketCount, hpos.ne', if_false]
  split_ifs <;> rfl

theorem level1Slot_eq (h : 256 ≤ r) (hlt : r < 65536) : level1Slot r = r / 256 - 1 := by
  unfold level1Slot bucketCount
  rw [sub_of_le (by omega) (by omega), if_neg (by omega)]

/-- The entry of timer `i`, wherever it is. -/
structure Armed (s : State ℕ) (i e D : ℕ) : Prop where
  deadline : (s.pool e).deadlineTicks = D
  oneshot : (s.pool e).periodTicks = 0
  callback : (s.pool e).callback = some i
  quiet : s.calls.count i = 0

theorem Armed.sits_push (h : Armed s i e D) (b : Bucket) (level slot : ℕ) :
    Sits (pushBack b e (s.setEntry e { s.pool e with wheelLevel := level, wheelSlot := slot })) i e b D where
  mem := mem_push.mpr (Or.inr ⟨rfl, rfl⟩)
  deadline := by simp [pushBack, State.setEntry, h.deadline]
  oneshot := by simp [pushBack, State.setEntry, h.oneshot]
  callback := by simp [pushBack, State.setEntry, h.callback]
  quiet := h.quiet

theorem Armed.remaining (h : Armed s i e c.deadline) (hc : c.InReach) (hlt : c.deadline < 2 ^ 64)
    (htick : s.tickCount = u64 n) (hborn : c.born ≤ n) (hn : n ≤ c.deadlineTick) :
    remainingTicks e s = c.deadlineTick - n := by
  have hnow := hc.now_eq hlt hborn hn
  unfold remainingTicks
  rw [h.deadline, htick]
  split_ifs <;> omega

theorem Armed.waiting_place (h : Armed s i e c.deadline) (hcursor : s.cursor = n % 256) (hn : n < c.deadlineTick)
    (hnear : c.deadlineTick ≤ n + 65535) (hlate : c.deadlineTick < n + 256 → ¬ c.OnTime)
    (hslot : n + 256 ≤ c.deadlineTick →
      (c.deadlineTick % 65536 = 256 * ((c.deadlineTick - n) / 256) ↔ c.OnTime)) :
    Waiting (place e (c.deadlineTick - n) s) n i c := by
  unfold place
  split_ifs with hr
  · refine ⟨e, _, h.sits_push _ _ _, ?_⟩
    have hs : (s.cursor + (c.deadlineTick - n)) % bucketCount = c.deadlineTick % 256 := by
      rw [hcursor, bucketCount]
      omega
    rw [hs]
    exact .level0 (by omega) (hlate (by omega))
  · refine ⟨e, _, h.sits_push _ _ _, ?_⟩
    rw [level1Slot_eq (by omega) (by omega)]
    refine .level1 (by omega) hnear ?_
    rw [Nat.sub_add_cancel (by omega)]
    exact hslot (by omega)

/-! ### The calls -/

theorem withLock_spec {f : State ℕ → Option (State ℕ)} (h : withLock f s = some s') :
    s.locked = false ∧ ∃ s₂, f { s with locked := true } = some s₂ ∧ s' = { s₂ with locked := false } := by
  unfold withLock at h
  split_ifs at h with hl
  obtain ⟨s₂, hf, rfl⟩ := Option.map_eq_some_iff.mp h
  exact ⟨by simpa using hl, s₂, hf, rfl⟩

variable {o : Option ℕ} {t : TimerEntry ℕ} {period N k x : ℕ} {initialized : Bool}

theorem allocEntry_spec (h : allocEntry s = some (o, s')) :
    s.locked = false ∧ (o = none ∧ s' = s ∨ ∃ e, o = some e ∧ popFront .free s = some (e, s')) := by
  unfold allocEntry at h
  split_ifs at h with hl
  refine ⟨by simpa using hl, ?_⟩
  split at h
  · cases h
    exact Or.inl ⟨rfl, rfl⟩
  · next e s₁ hpop =>
    cases h
    exact Or.inr ⟨e, rfl, hpop⟩

theorem popFront_setEntry (h : popFront b s = some (e, s₁)) (x : ℕ) :
    popFront b (s.setEntry x t) = some (e, s₁.setEntry x t) := by
  obtain ⟨rest, hb, rfl⟩ := popFront_spec h
  simp [popFront, State.setEntry, hb]

/-- `create` arms the first free entry and inserts it, or finds no free entry. -/
theorem create_spec {callback : Option ℕ}
    (h : create fuel D period callback s = some (o, s')) : o = none ∧ s' = s ∨
      ∃ e s₁ s₂, ∃ t : TimerEntry ℕ, o = some e ∧ (t.deadlineTicks = D ∧ t.periodTicks = period ∧ t.callback = callback) ∧
        s.locked = false ∧ popFront .free (s.setEntry e t) = some (e, s₁) ∧
        insertEntry fuel e { s₁ with locked := true } = some s₂ ∧ s' = { s₂ with locked := false } := by
  unfold create at h
  cases halloc : allocEntry s with
  | none => rw [halloc] at h; exact nomatch h
  | some p =>
    obtain ⟨o', s₁⟩ := p
    rw [halloc] at h
    obtain ⟨hl, ⟨rfl, rfl⟩ | ⟨e, rfl, hpop⟩⟩ := allocEntry_spec halloc
    · cases h
      exact Or.inl ⟨rfl, rfl⟩
    · obtain ⟨s₃, hlock, h⟩ := Option.map_eq_some_iff.mp h
      cases h
      obtain ⟨-, s₂, hinsert, rfl⟩ := withLock_spec hlock
      exact Or.inr ⟨e, _, s₂, _, rfl, ⟨rfl, rfl, rfl⟩, hl, popFront_setEntry hpop e, hinsert, rfl⟩

theorem Handled.unlock (hl : s.locked = false) (h : Handled e { s with locked := true } s') :
    Handled e s { s' with locked := false } := by
  obtain ⟨b, s₁, hkept, rfl⟩ := h
  refine ⟨b, { s₁ with locked := false }, ⟨hkept.lists, hkept.pool, hkept.callback, ?_, hkept.calls⟩, rfl⟩
  have hregs := hkept.regs
  simp only [State.regs, Prod.mk.injEq] at hregs ⊢
  exact ⟨hregs.1, hregs.2.1, hregs.2.2.1, hregs.2.2.2.1, hregs.2.2.2.2.1, hl.symm⟩

/-- The level-0 bucket under the cursor is emptied; when the cursor wraps, a level-1 bucket is too. -/
theorem tick_spec (hinit : s.initialized = true) (h : tick fuel s.bspLapicId s = some s') :
    ∃ s₁, drain (popFront (.level0 s.cursor)) (fireEntry fuel) fuel { s with tickCount := inc s.tickCount } = some s₁ ∧
      (s₁.cursor + 1 ≠ 256 ∧ s' = { s₁ with cursor := s₁.cursor + 1 } ∨
        s₁.cursor + 1 = 256 ∧ ∃ s₂,
          drain (popFront (.level1 s₁.l1Cursor)) (cascadeEntry fuel) fuel { s₁ with cursor := 0 } = some s₂ ∧
          s' = { s₂ with l1Cursor := (s₂.l1Cursor + 1) % 256 }) := by
  unfold tick at h
  rw [if_neg (by simp [hinit]), if_neg (by simp)] at h
  split at h
  · exact nomatch h
  · next s₁ hdrain =>
    refine ⟨s₁, hdrain, ?_⟩
    split_ifs at h with hwrap
    · obtain ⟨s₂, hcascade, rfl⟩ := Option.map_eq_some_iff.mp h
      exact Or.inr ⟨hwrap, s₂, hcascade, rfl⟩
    · exact Or.inl ⟨hwrap, (Option.some.inj h).symm⟩

/-! ### What holds between calls -/

structure Basic (lapicId : ℕ) (m : Machine) : Prop where
  tags : Tags m.created.length m.state
  regs : m.state.regs = (m.ticks % 256, m.ticks / 256 % 256, u64 m.ticks, true, lapicId, false)
  valid : ∀ c ∈ m.created, c.deadline < 2 ^ 64 ∧ c.born ≤ m.ticks
  fired : ∀ f ∈ m.fired, f.1 < m.created.length ∧ ∀ t, f.2 = some t → t ≤ m.ticks

theorem State.regs_eq {cursor l1Cursor tickCount : ℕ} {locked : Bool}
    (h : s.regs = (cursor, l1Cursor, tickCount, initialized, lapicId, locked)) :
    s.cursor = cursor ∧ s.l1Cursor = l1Cursor ∧ s.tickCount = tickCount ∧ s.initialized = initialized ∧
      s.bspLapicId = lapicId ∧ s.locked = locked := by
  simpa [State.regs] using h

/-- The states agree on the lists, the entries and the calls. -/
def SameEntries (s s' : State ℕ) : Prop := s'.lists = s.lists ∧ s'.pool = s.pool ∧ s'.calls = s.calls

theorem Tags.same (h : Tags N s) (hlists : s'.lists = s.lists) (hpool : s'.pool = s.pool) : Tags N s' :=
  ⟨hlists ▸ h.apart, hpool ▸ h.lt, hpool ▸ h.unique⟩

theorem Sits.same (h : Sits s i e b D) (hs : SameEntries s s') : Sits s' i e b D := by
  obtain ⟨hlists, hpool, hcalls⟩ := hs
  exact ⟨hlists ▸ h.mem, hpool ▸ h.deadline, hpool ▸ h.oneshot, hpool ▸ h.callback, hcalls ▸ h.quiet⟩

theorem Gone.same (h : Gone s i k) (hs : SameEntries s s') : Gone s' i k := by
  obtain ⟨-, hpool, hcalls⟩ := hs
  exact ⟨hpool ▸ h.callback, hcalls ▸ h.count⟩

/-- The wheel as the first loop of a `tick()` call finds it. -/
def Machine.ticked (m : Machine) : State ℕ := { m.called with tickCount := inc m.state.tickCount }

theorem Basic.ticked_regs (hb : Basic lapicId m) :
    m.ticked.regs = (m.ticks % 256, m.ticks / 256 % 256, u64 (m.ticks + 1), true, lapicId, false) := by
  obtain ⟨hcur, hl1, htick, hinit, hlapic, hlock⟩ := State.regs_eq hb.regs
  have hinc : inc m.state.tickCount = u64 (m.ticks + 1) := by
    rw [htick]
    unfold inc u64
    omega
  simp only [State.regs, Machine.ticked, Machine.called, hcur, hl1, hinc, hinit, hlapic, hlock]

theorem Basic.called_tags (hb : Basic lapicId m) : Tags m.created.length m.called := hb.tags.same rfl rfl

theorem Basic.ticked_tags (hb : Basic lapicId m) : Tags m.created.length m.ticked := hb.tags.same rfl rfl

/-- The two loops of a `tick()` call, with the counters they see. -/
theorem tick_phases (hb : Basic lapicId m) (h : tick fuel m.state.bspLapicId m.called = some s') :
    ∃ s₁, drain (popFront (.level0 (m.ticks % 256))) (fireEntry fuel) fuel m.ticked = some s₁ ∧
      ((m.ticks + 1) % 256 ≠ 0 ∧ SameEntries s₁ s' ∨
        (m.ticks + 1) % 256 = 0 ∧ ∃ s₂ s₃, SameEntries s₁ s₂ ∧ Tags m.created.length s₂ ∧
          s₂.regs = (0, m.ticks / 256 % 256, u64 (m.ticks + 1), true, lapicId, false) ∧
          drain (popFront (.level1 (m.ticks / 256 % 256))) (cascadeEntry fuel) fuel s₂ = some s₃ ∧
          SameEntries s₃ s') ∧ Tags m.created.length s' ∧
      s'.regs = ((m.ticks + 1) % 256, (m.ticks + 1) / 256 % 256, u64 (m.ticks + 1), true, lapicId, false) := by
  obtain ⟨hcur, -, -, hinit, -, -⟩ := State.regs_eq hb.regs
  obtain ⟨s₁, hdrain, hrest⟩ := tick_spec (s := m.called) hinit h
  replace hdrain : drain (popFront (.level0 m.state.cursor)) (fireEntry fuel) fuel m.ticked = some s₁ := hdrain
  rw [hcur] at hdrain
  obtain ⟨htags₁, hregs₁⟩ := drain_tags (fun _ _ _ => fireEntry_handled) hb.ticked_tags hdrain
  obtain ⟨hcur₁, hl1₁, htick₁, hinit₁, hlapic₁, hlock₁⟩ := State.regs_eq (hregs₁.trans hb.ticked_regs)
  refine ⟨s₁, hdrain, ?_⟩
  rcases hrest with ⟨hwrap, rfl⟩ | ⟨hwrap, s₃, hcascade, rfl⟩
  · refine ⟨Or.inl ⟨by omega, rfl, rfl, rfl⟩, htags₁.same rfl rfl, ?_⟩
    have hc : s₁.cursor + 1 = (m.ticks + 1) % 256 := by omega
    have hl : s₁.l1Cursor = (m.ticks + 1) / 256 % 256 := by omega
    simp only [State.regs, hc, hl, htick₁, hinit₁, hlapic₁, hlock₁]
  · generalize hs₂ : ({ s₁ with cursor := 0 } : State ℕ) = s₂ at hcascade
    rw [hl1₁] at hcascade
    have hsame : SameEntries s₁ s₂ := by rw [← hs₂]; exact ⟨rfl, rfl, rfl⟩
    have htags₂ : Tags m.created.length s₂ := htags₁.same hsame.1 hsame.2.1
    have hregs₂ : s₂.regs = (0, m.ticks / 256 % 256, u64 (m.ticks + 1), true, lapicId, false) := by
      simp only [← hs₂, State.regs, hl1₁, htick₁, hinit₁, hlapic₁, hlock₁]
    obtain ⟨htags₃, hregs₃⟩ := drain_tags (fun _ _ _ => cascadeEntry_handled) htags₂ hcascade
    obtain ⟨hcur₃, hl1₃, htick₃, hinit₃, hlapic₃, hlock₃⟩ := State.regs_eq (hregs₃.trans hregs₂)
    refine ⟨Or.inr ⟨by omega, s₂, s₃, hsame, htags₂, hregs₂, hcascade, rfl, rfl, rfl⟩, htags₃.same rfl rfl, ?_⟩
    have hc : s₃.cursor = (m.ticks + 1) % 256 := by omega
    have hl : (s₃.l1Cursor + 1) % 256 = (m.ticks + 1) / 256 % 256 := by omega
    simp only [State.regs, hc, hl, htick₃, hinit₃, hlapic₃, hlock₃]

/-! ### A timer through a `tick()` call -/

theorem Waiting.same (h : Waiting s n i c) (hs : SameEntries s s') : Waiting s' n i c := by
  obtain ⟨e, b, hsits, hplace⟩ := h
  exact ⟨e, b, hsits.same hs, hplace⟩

theorem Sits.armed (h : Sits s i e b D) (hpop : popFront b s = some (e, s')) : Armed s' i e D := by
  obtain ⟨rest, -, rfl⟩ := popFront_spec hpop
  exact ⟨h.deadline, h.oneshot, h.callback, h.quiet⟩

/-- The first loop leaves a waiting timer alone. -/
theorem Waiting.level0_loop (h : Waiting m.called m.ticks i c) (hb : Basic lapicId m) (hn : m.ticks < c.deadlineTick)
    (hdrain : drain (popFront (.level0 (m.ticks % 256))) (fireEntry fuel) fuel m.ticked = some s') :
    Waiting s' m.ticks i c := by
  obtain ⟨e, b, hsits, hplace⟩ := h
  refine ⟨e, b, drain_sits (fun _ _ _ => fireEntry_handled) hb.ticked_tags hdrain ?_ (hsits.same ⟨rfl, rfl, rfl⟩), hplace⟩
  cases hplace with
  | level0 hnear hlate =>
    simp only [ne_eq, Bucket.level0.injEq]
    omega
  | level1 hk hnear hslot => simp

/-- A bucket that is cascaded at the deadline of a timer in it: the timer fires. -/
theorem Sits.cascade_fires (htags : Tags N s) (hc : c.InReach) (hlt : c.deadline < 2 ^ 64)
    (htick : s.tickCount = u64 c.deadlineTick) (hsits : Sits s i e (.level1 k) c.deadline)
    (h : drain (popFront (.level1 k)) (cascadeEntry fuel) fuel s = some s') : Gone s' i 1 := by
  have hloop := drain_rule (P := fun s => Sits s i e (.level1 k) c.deadline ∨ Gone s i 1)
    (fun _ _ _ => cascadeEntry_handled) ?_ htags (Or.inl hsits) h
  · obtain ⟨-, -, hs' | hs', hempty⟩ := hloop
    · exact absurd hs'.mem (by simp [hempty])
    · exact hs'
  intro f s₁ s₂ s₃ htags₁ hregs hs₁ hpop hrun hm
  rcases hs₁ with hs₁ | hs₁
  · by_cases hf : f = e
    · subst hf
      have harmed := hs₁.armed hpop
      have hzero : remainingTicks f s₂ = 0 := by
        obtain ⟨rest, -, rfl⟩ := popFront_spec hpop
        have htick₁ : s₁.tickCount = u64 c.deadlineTick := by
          simp only [State.regs, Prod.mk.injEq] at hregs
          rw [hregs.2.2.1, htick]
        rw [harmed.remaining hc hlt htick₁ hc.reach.1.le le_rfl, Nat.sub_self]
      rw [cascadeEntry, hzero, if_pos rfl] at hrun
      obtain ⟨hcalls, hnone, -⟩ := fireEntry_oneshot harmed.callback harmed.oneshot hrun
      refine Or.inr ⟨fun x hx => ?_, ?_⟩
      · have hxf := htags₁.unique x f i (hm.callback hx) hs₁.callback
        subst hxf
        exact nomatch hnone.symm.trans hx
      · rw [hcalls, List.count_append, harmed.quiet, List.count_singleton_self]
    · exact Or.inl (hs₁.moved htags₁ hm hf)
  · exact Or.inr (hs₁.moved hm)

/-- A bucket that is cascaded before the deadline of a timer: wherever the timer is put then, it will be late. -/
theorem Waiting.cascade_loop (h : Waiting s n i c) (htags : Tags N s) (hc : c.InReach)
    (hlt : c.deadline < 2 ^ 64) (hcursor : s.cursor = 0) (htick : s.tickCount = u64 n) (hborn : c.born ≤ n)
    (hn : n < c.deadlineTick) (hk : n % 65536 = 256 * (k + 1) % 65536)
    (hdrain : drain (popFront (.level1 k)) (cascadeEntry fuel) fuel s = some s') : Waiting s' n i c := by
  refine (drain_rule (fun _ _ _ => cascadeEntry_handled) (P := fun s => Waiting s n i c) ?_ htags h hdrain).2.2.1
  intro f s₁ s₂ s₃ htags₁ hregs hs₁ hpop hrun hm
  obtain ⟨e, b, hsits, hplace⟩ := hs₁
  by_cases hf : f = e
  · subst hf
    obtain rfl : Bucket.level1 k = b := htags₁.apart.once _ _ f hm.front hsits.mem
    cases hplace with
    | level1 hk255 hnear hslot =>
      have hlate : ¬ c.OnTime := fun hot => by
        have := hslot.mpr hot
        omega
      have harmed := hsits.armed hpop
      obtain ⟨rest, -, rfl⟩ := popFront_spec hpop
      simp only [State.regs, Prod.mk.injEq] at hregs
      have hr := harmed.remaining hc hlt (hregs.2.2.1.trans htick) hborn hn.le
      rw [cascadeEntry_place _ hr (by omega)] at hrun
      cases hrun
      refine harmed.waiting_place (by dsimp only; omega) hn hnear (fun _ => hlate) fun hfar => ?_
      exact ⟨fun hd => absurd hd (by omega), fun hot => absurd hot hlate⟩
  · exact ⟨e, b, hsits.moved htags₁ hm hf, hplace⟩

theorem Waiting.tick (h : Waiting m.called m.ticks i c) (hb : Basic lapicId m) (hc : c.InReach)
    (hlt : c.deadline < 2 ^ 64) (hborn : c.born ≤ m.ticks) (hn : m.ticks < c.deadlineTick)
    (htick : Timer.tick fuel m.state.bspLapicId m.called = some s') :
    (m.ticks + 1 < c.deadlineTick → Waiting s' (m.ticks + 1) i c) ∧
      (m.ticks + 1 = c.deadlineTick → (c.OnTime → Gone s' i 1) ∧ (¬ c.OnTime → s'.calls.count i = 0)) := by
  obtain ⟨s₁, hdrain, hrest, -⟩ := tick_phases hb htick
  have hs₁ := h.level0_loop hb hn hdrain
  obtain ⟨e, b, hsits, hplace⟩ := hs₁
  rcases hrest with ⟨hwrap, hsame⟩ | ⟨hwrap, s₂, s₃, hsame₂, htags₂, hregs₂, hcascade, hsame⟩
  · refine ⟨fun _ => ⟨e, b, hsits.same hsame, hplace.mono⟩, fun hd => ⟨fun hot => ?_, fun _ => ?_⟩⟩
    · -- a timer that is on time has its deadline at a cascade
      obtain ⟨-, haligned⟩ := hc.onTime_iff.mp hot
      omega
    · exact (hsits.same hsame).quiet
  · obtain ⟨hcur, -, htick₂, -, -, -⟩ := State.regs_eq hregs₂
    have hk : (m.ticks + 1) % 65536 = 256 * (m.ticks / 256 % 256 + 1) % 65536 := by omega
    have hsits₂ := hsits.same hsame₂
    refine ⟨fun hlate => ?_, fun hd => ⟨fun hot => ?_, fun hot => ?_⟩⟩
    · exact (Waiting.cascade_loop ⟨e, b, hsits₂, hplace.mono⟩ htags₂ hc hlt hcur htick₂ (by omega) hlate hk hcascade).same hsame
    · cases hplace with
      | level0 hnear hlate => exact absurd hot hlate
      | @level1 k hk255 hnear hslot =>
        have hslot := hslot.mpr hot
        obtain rfl : k = m.ticks / 256 % 256 := by omega
        exact (hsits₂.cascade_fires htags₂ hc hlt (hd ▸ htick₂) hcascade).same hsame
    · have hother : Bucket.level1 (m.ticks / 256 % 256) ≠ b := by
        rintro rfl
        cases hplace with
        | level1 hk255 hnear hslot => exact hot (hslot.mp (by omega))
      exact ((drain_sits (fun _ _ _ => cascadeEntry_handled) htags₂ hcascade hother hsits₂).same hsame).quiet

theorem Gone.tick {k : ℕ} (h : Gone m.called i k) (hb : Basic lapicId m)
    (htick : Timer.tick fuel m.state.bspLapicId m.called = some s') : Gone s' i k := by
  obtain ⟨s₁, hdrain, hrest, -⟩ := tick_phases hb htick
  have hs₁ := drain_gone (fun _ _ _ => fireEntry_handled) hb.ticked_tags hdrain (h.same ⟨rfl, rfl, rfl⟩)
  rcases hrest with ⟨-, hsame⟩ | ⟨-, s₂, s₃, hsame₂, htags₂, -, hcascade, hsame⟩
  · exact hs₁.same hsame
  · exact (drain_gone (fun _ _ _ => cascadeEntry_handled) htags₂ hcascade (hs₁.same hsame₂)).same hsame

/-! ### Steps -/

/-- A call creates a timer, changes nothing, or is a `tick()`. -/
theorem step_cases (hb : Basic lapicId m) (h : Step m m') :
    (∃ fuel e s' c, c.born = m.ticks ∧ c.deadline < 2 ^ 64 ∧
      create fuel c.deadline c.period (some m.created.length) m.called = some (some e, s') ∧
      m' = ⟨s', m.ticks, m.created ++ [c], m.fired ++ s'.calls.map fun i => (i, none)⟩) ∨
    m' = { m with state := m.called } ∨
    ∃ fuel s', tick fuel m.state.bspLapicId m.called = some s' ∧
      m' = ⟨s', m.ticks + 1, m.created, m.fired ++ s'.calls.map fun i => (i, some (m.ticks + 1))⟩ := by
  obtain ⟨-, -, -, hinit, -, -⟩ := State.regs_eq hb.regs
  cases h with
  | @oneshot s' fuel deadline e hdeadline h =>
    rw [createOneshot, if_neg (by simp [Machine.called, hinit])] at h
    exact Or.inl ⟨fuel, e, s', ⟨m.ticks, deadline, 0⟩, rfl, hdeadline, h, rfl⟩
  | @periodic s' fuel startDelta period e _ _ h =>
    unfold createPeriodic at h
    split_ifs at h
    · exact nomatch h
    · exact Or.inl ⟨fuel, e, s', ⟨m.ticks, _, period⟩, rfl, u64_lt _, h, rfl⟩
  | @refused s' fuel deadline period callback h =>
    have hs' : s' = m.called := by
      unfold createOneshot createPeriodic at h
      rcases h with h | h <;> split_ifs at h
      · exact (Prod.mk.inj (Option.some.inj h)).2.symm
      · exact (create_spec h).elim And.right fun ⟨_, _, _, _, ho, _⟩ => nomatch ho
      · exact (Prod.mk.inj (Option.some.inj h)).2.symm
      · exact (create_spec h).elim And.right fun ⟨_, _, _, _, ho, _⟩ => nomatch ho
    exact Or.inr (Or.inl (by rw [hs']))
  | @tick s' fuel h => exact Or.inr (Or.inr ⟨fuel, s', h, rfl⟩)

theorem firings_append (m : Machine) (calls : List ℕ) (l : Option ℕ) (i n : ℕ) (created : List Creation) :
    firings ⟨s, n, created, m.fired ++ calls.map fun j => (j, l)⟩ i = firings m i ++ List.replicate (calls.count i) l := by
  unfold firings
  simp only [List.filter_append, List.map_append, List.append_cancel_left_eq]
  induction calls with
  | nil => rfl
  | cons j calls ih =>
    by_cases hj : j = i
    · subst hj
      simpa [List.replicate_succ] using ih
    · simpa [hj] using ih

theorem firings_nil (hb : Basic lapicId m) (hi : m.created.length ≤ i) : firings m i = [] := by
  have hnone : (m.fired.filter fun f => f.1 = i) = [] := by
    refine List.filter_eq_nil_iff.mpr fun f hf => ?_
    have := (hb.fired f hf).1
    simp only [decide_eq_true_eq]
    omega
  rw [firings, hnone, List.map_nil]

theorem Tags.setEntry (h : Tags N s) (ht : t.callback = some N) :
    Tags (N + 1) (s.setEntry e t) := by
  have hpool : ∀ x j, ((s.setEntry e t).pool x).callback = some j →
      x = e ∧ j = N ∨ x ≠ e ∧ j < N ∧ (s.pool x).callback = some j := by
    intro x j hx
    by_cases hxe : x = e
    · subst hxe
      simp only [State.setEntry, update_self, ht, Option.some.injEq] at hx
      exact Or.inl ⟨rfl, hx.symm⟩
    · simp only [State.setEntry, update_of_ne hxe] at hx
      exact Or.inr ⟨hxe, h.lt x j hx, hx⟩
  refine ⟨h.apart, fun x j hx => ?_, fun x y j hx hy => ?_⟩
  · rcases hpool x j hx with ⟨-, rfl⟩ | ⟨-, hj, -⟩ <;> omega
  · rcases hpool x j hx with ⟨rfl, hjx⟩ | ⟨-, hjx, hx⟩ <;> rcases hpool y j hy with ⟨rfl, hjy⟩ | ⟨-, hjy, hy⟩
    · rfl
    · omega
    · omega
    · exact h.unique x y j hx hy

theorem Sits.setEntry (h : Sits s i e b D) (hx : e ≠ x) :
    Sits (s.setEntry x t) i e b D := by
  have hpool : (s.setEntry x t).pool e = s.pool e := update_of_ne hx _ _
  exact ⟨h.mem, hpool ▸ h.deadline, hpool ▸ h.oneshot, hpool ▸ h.callback, h.quiet⟩

theorem Gone.setEntry (h : Gone s i k) (ht : t.callback = some N) (hi : i ≠ N) :
    Gone (s.setEntry x t) i k := by
  refine ⟨fun y hy => ?_, h.count⟩
  by_cases hyx : y = x
  · subst hyx
    simp only [State.setEntry, update_self, ht, Option.some.injEq] at hy
    exact hi hy.symm
  · simp only [State.setEntry, update_of_ne hyx] at hy
    exact h.callback y hy

theorem create_moved (htags : Tags N s) (h : create fuel D period (some N) s = some (some e, s')) :
    ∃ t : TimerEntry ℕ, t.callback = some N ∧ Tags (N + 1) (s.setEntry e t) ∧ Moved .free e (s.setEntry e t) s' := by
  obtain ⟨ho, -⟩ | ⟨e', s₁, s₂, t, ho, ⟨-, -, hcall⟩, hl, hpop, hinsert, rfl⟩ := create_spec h
  · exact nomatch ho
  · cases ho
    refine ⟨t, hcall, htags.setEntry hcall, s₁, hpop, (insertEntry_handled hinsert).unlock ?_⟩
    obtain ⟨rest, -, rfl⟩ := popFront_spec hpop
    exact hl

theorem Waiting.create {N period : ℕ} (h : Waiting s n i c) (htags : Tags N s)
    (hcreate : Timer.create fuel D period (some N) s = some (some e, s')) : Waiting s' n i c := by
  obtain ⟨t, -, htags', hm⟩ := create_moved htags hcreate
  obtain ⟨x, b, hsits, hplace⟩ := h
  have hx : e ≠ x := by
    rintro rfl
    have hfree : Bucket.free = b := htags.apart.once _ _ e hm.front hsits.mem
    subst hfree
    cases hplace
  exact ⟨x, b, (hsits.setEntry hx.symm).moved htags' hm hx, hplace⟩

theorem Gone.create {N period k : ℕ} (h : Gone s i k) (htags : Tags N s) (hi : i ≠ N)
    (hcreate : Timer.create fuel D period (some N) s = some (some e, s')) : Gone s' i k := by
  obtain ⟨t, ht, -, hm⟩ := create_moved htags hcreate
  exact (h.setEntry ht hi).moved hm

/-- The entry as `create` hands it to `insert_entry`. -/
structure Filled (s₁ : State ℕ) (e : ℕ) (c : Creation) (i : ℕ) : Prop where
  deadline : (s₁.pool e).deadlineTicks = c.deadline
  period : (s₁.pool e).periodTicks = c.period
  callback : (s₁.pool e).callback = some i

/-- A timer whose deadline is less than 65536 ticks away, or over, is placed. -/
theorem create_near (h : create fuel c.deadline c.period (some N) s = some (some e, s')) (htick : s.tickCount = c.time)
    (hnear : c.deadline < c.time + 65536) :
    ∃ s₁ rest, Filled s₁ e c N ∧ s.lists .free = e :: rest ∧ s₁.lists = update s.lists .free rest ∧
      (s₁.cursor = s.cursor ∧ s₁.tickCount = s.tickCount ∧ s₁.calls = s.calls) ∧
      s' = { place e (max (c.deadline - c.time) 1) s₁ with locked := false } := by
  obtain ⟨ho, -⟩ | ⟨e', s₁, s₂, t, ho, ⟨hdeadline, hperiod, hcall⟩, hl, hpop, hinsert, rfl⟩ := create_spec h
  · cases ho
  cases ho
  obtain ⟨rest, hlist, rfl⟩ := popFront_spec hpop
  generalize hs₁ : ({ s.setEntry e t with lists := update (s.setEntry e t).lists .free rest, locked := true } : State ℕ) =
    s₁ at hinsert
  have hpool : s₁.pool e = t := by simp [← hs₁, State.setEntry]
  have hrem : remainingTicks e s₁ = c.deadline - c.time := by
    rw [remainingTicks, hpool, hdeadline, ← htick]
    simp only [← hs₁, State.setEntry]
    split_ifs <;> omega
  cases fuel with
  | zero => cases hinsert
  | succ fuel =>
    rw [insertEntry_place fuel (hrem.trans_lt (by omega)), hrem] at hinsert
    obtain rfl := Option.some.inj hinsert
    exact ⟨s₁, rest, ⟨hpool ▸ hdeadline, hpool ▸ hperiod, hpool ▸ hcall⟩, hlist, by rw [← hs₁]; rfl,
      by rw [← hs₁]; exact ⟨rfl, rfl, rfl⟩, rfl⟩

theorem create_waiting (hc : c.InReach) (hcursor : s.cursor = c.born % 256)
    (htick : s.tickCount = u64 c.born) (hcalls : s.calls = [])
    (h : create fuel c.deadline c.period (some N) s = some (some e, s')) : Waiting s' c.born N c := by
  obtain ⟨hpos, hreach⟩ := hc.reach
  obtain ⟨s₁, rest, harm, -, -, ⟨hcursor₁, -, hcalls₁⟩, rfl⟩ := create_near h htick (Nat.lt_succ_of_le hc.near)
  have harmed : Armed s₁ N e c.deadline :=
    ⟨harm.deadline, harm.period.trans hc.oneshot, harm.callback, by rw [hcalls₁, hcalls]; rfl⟩
  have hleft : max (c.deadline - c.time) 1 = c.deadlineTick - c.born := by
    unfold Creation.deadlineTick at *
    omega
  rw [hleft]
  have hwait := harmed.waiting_place (hcursor₁.trans hcursor) hpos hreach
    (fun hnear hot => by have := (hc.onTime_iff.mp hot).1; omega)
    (fun hfar => ⟨fun hd => hc.onTime_iff.mpr ⟨hfar, hd⟩, fun hot => (hc.onTime_iff.mp hot).2⟩)
  exact hwait.same ⟨rfl, rfl, rfl⟩

theorem tick_calls (hb : Basic lapicId m) (h : tick fuel m.state.bspLapicId m.called = some s') :
    ∀ a ∈ s'.calls, a < m.created.length := by
  obtain ⟨s₁, hdrain, hrest, -⟩ := tick_phases hb h
  have hs₁ := drain_calls (fun _ _ _ => fireEntry_handled) hb.ticked_tags hdrain (fun a ha => nomatch ha)
  rcases hrest with ⟨-, hsame⟩ | ⟨-, s₂, s₃, hsame₂, htags₂, -, hcascade, hsame⟩
  · rwa [hsame.2.2]
  · rw [hsame.2.2]
    exact drain_calls (fun _ _ _ => cascadeEntry_handled) htags₂ hcascade (by rwa [hsame₂.2.2])

theorem create_calls (htags : Tags N s) (hcalls : s.calls = [])
    (h : create fuel D period (some N) s = some (some e, s')) : ∀ a ∈ s'.calls, a = N := by
  obtain ⟨t, ht, -, hm⟩ := create_moved htags h
  obtain ⟨l, hl, hcall⟩ := hm.calls
  intro a ha
  have ha : a ∈ l := by simpa [hl, State.setEntry, hcalls] using ha
  have := hcall a ha
  simp only [State.setEntry, update_self, ht, Option.some.injEq] at this
  exact this.symm

theorem Basic.step (hb : Basic lapicId m) (h : Step m m') : Basic lapicId m' := by
  rcases step_cases hb h with ⟨fuel, e, s', c, hborn, hlt, hcreate, rfl⟩ | rfl | ⟨fuel, s', htick, rfl⟩
  · obtain ⟨t, -, htags', hm⟩ := create_moved hb.called_tags hcreate
    have hcalls := create_calls hb.called_tags rfl hcreate
    refine ⟨?_, hm.regs.trans hb.regs, ?_, ?_⟩
    · rw [List.length_append, List.length_singleton]
      exact htags'.moved hm
    · intro d hd
      rcases List.mem_append.mp hd with hd | hd
      · exact hb.valid d hd
      · rw [List.mem_singleton.mp hd]
        exact ⟨hlt, hborn.le⟩
    · intro f hf
      rw [List.length_append, List.length_singleton]
      rcases List.mem_append.mp hf with hf | hf
      · exact ⟨Nat.lt_succ_of_lt (hb.fired f hf).1, (hb.fired f hf).2⟩
      · obtain ⟨a, ha, rfl⟩ := List.mem_map.mp hf
        exact ⟨Nat.lt_succ_of_le (hcalls a ha).le, fun t ht => nomatch ht⟩
  · exact ⟨hb.called_tags, hb.regs, hb.valid, hb.fired⟩
  · obtain ⟨-, -, -, htags', hregs'⟩ := tick_phases hb htick
    refine ⟨htags', hregs', fun d hd => ⟨(hb.valid d hd).1, (hb.valid d hd).2.trans (Nat.le_succ _)⟩, ?_⟩
    intro f hf
    rcases List.mem_append.mp hf with hf | hf
    · exact ⟨(hb.fired f hf).1, fun t ht => ((hb.fired f hf).2 t ht).trans (Nat.le_succ _)⟩
    · obtain ⟨a, ha, rfl⟩ := List.mem_map.mp hf
      exact ⟨tick_calls hb htick a ha, fun t ht => (Option.some.inj ht).ge⟩

/-! ### Runs -/

/-- A one-shot timer within reach, from its creation on. -/
structure Track (m : Machine) (i : ℕ) (c : Creation) : Prop where
  before : m.ticks < c.deadlineTick → firings m i = [] ∧ Waiting m.called m.ticks i c
  onTime : c.deadlineTick ≤ m.ticks → c.OnTime → firings m i = [some c.deadlineTick] ∧ Gone m.called i 0
  late : c.deadlineTick ≤ m.ticks → ¬ c.OnTime → some c.deadlineTick ∉ firings m i

theorem Waiting.called (h : Waiting s n i c) : Waiting { s with calls := [] } n i c := by
  obtain ⟨e, b, hsits, hplace⟩ := h
  exact ⟨e, b, ⟨hsits.mem, hsits.deadline, hsits.oneshot, hsits.callback, rfl⟩, hplace⟩

theorem Waiting.quiet (h : Waiting s n i c) : s.calls.count i = 0 := by
  obtain ⟨e, b, hsits, -⟩ := h
  exact hsits.quiet

theorem Gone.called (h : Gone s i k) : Gone { s with calls := [] } i 0 := ⟨h.callback, rfl⟩

theorem Track.create {N period : ℕ} {created : List Creation} (h : Track m i c) (htags : Tags N m.called) (hi : i ≠ N)
    (hcreate : Timer.create fuel D period (some N) m.called = some (some e, s')) :
    Track ⟨s', m.ticks, created, m.fired ++ s'.calls.map fun i => (i, none)⟩ i c := by
  refine ⟨fun hn => ?_, fun hn hot => ?_, fun hn hot => ?_⟩
  · obtain ⟨hfirings, hwait⟩ := h.before hn
    have hwait' := hwait.create htags hcreate
    rw [firings_append, hfirings, hwait'.quiet]
    exact ⟨rfl, hwait'.called⟩
  · obtain ⟨hfirings, hgone⟩ := h.onTime hn hot
    have hgone' := hgone.create htags hi hcreate
    rw [firings_append, hfirings, hgone'.count]
    exact ⟨rfl, hgone'.called⟩
  · rw [firings_append, List.mem_append, not_or]
    exact ⟨h.late hn hot, fun hmem => nomatch (List.mem_replicate.mp hmem).2⟩

theorem Track.tick (h : Track m i c) (hb : Basic lapicId m) (hc : c.InReach) (hlt : c.deadline < 2 ^ 64)
    (hborn : c.born ≤ m.ticks) (htick : Timer.tick fuel m.state.bspLapicId m.called = some s') :
    Track ⟨s', m.ticks + 1, m.created, m.fired ++ s'.calls.map fun i => (i, some (m.ticks + 1))⟩ i c := by
  by_cases hn : m.ticks < c.deadlineTick
  · obtain ⟨hfirings, hwait⟩ := h.before hn
    obtain ⟨hbefore, hat⟩ := hwait.tick hb hc hlt hborn hn htick
    refine ⟨fun hn' => ?_, fun hn' hot => ?_, fun hn' hot => ?_⟩
    · rw [firings_append, hfirings, (hbefore hn').quiet]
      exact ⟨rfl, (hbefore hn').called⟩
    · have hd : m.ticks + 1 = c.deadlineTick := le_antisymm hn hn'
      have hgone := (hat hd).1 hot
      rw [firings_append, hfirings, hgone.count, hd]
      exact ⟨rfl, hgone.called⟩
    · have hd : m.ticks + 1 = c.deadlineTick := le_antisymm hn hn'
      rw [firings_append, hfirings, (hat hd).2 hot]
      exact List.not_mem_nil
  · have hpast : c.deadlineTick ≤ m.ticks := not_lt.mp hn
    refine ⟨fun hn' => absurd (Nat.lt_of_succ_lt hn') hn, fun _ hot => ?_, fun _ hot => ?_⟩
    · obtain ⟨hfirings, hgone⟩ := h.onTime hpast hot
      have hgone' := hgone.tick hb htick
      rw [firings_append, hfirings, hgone'.count]
      exact ⟨rfl, hgone'.called⟩
    · rw [firings_append, List.mem_append, not_or]
      refine ⟨h.late hpast hot, fun hmem => ?_⟩
      have := Option.some.inj (List.mem_replicate.mp hmem).2
      omega

/-- After `init`, with the first `n` entries in the free list. -/
def fresh (lapicId n : ℕ) (initialized : Bool) : State ℕ :=
  ⟨update (fun _ => []) .free (List.range n), fun _ => ⟨0, 0, none, 0, 0⟩, 0, 0, 0, initialized, lapicId, false, []⟩

theorem pushBack_fresh (lapicId n : ℕ) : pushBack .free n (fresh lapicId n false) = fresh lapicId (n + 1) false := by
  simp [pushBack, push, fresh, List.range_succ]

theorem init_eq (lapicId : ℕ) : init lapicId zeroed = fresh lapicId maxEntries true := by
  have hloop := forUp_inv (f := pushBack .free) (P := fun i s => s = fresh lapicId i false) maxEntries 0
    { zeroed with bspLapicId := lapicId } (fun i s _ _ hs => by rw [hs, pushBack_fresh]) (by simp [fresh, zeroed])
  dsimp only at hloop
  rw [Nat.zero_add] at hloop
  rw [init, hloop]
  rfl

theorem fresh_free {n e : ℕ} (h : e ∈ (fresh lapicId n initialized).lists b) : b = .free := by
  by_contra hb
  simp [fresh, hb] at h

theorem fresh_apart (lapicId n : ℕ) (initialized : Bool) : Apart (fresh lapicId n initialized).lists := by
  refine ⟨fun b => ?_, fun b c e hb hc => (fresh_free hb).trans (fresh_free hc).symm⟩
  by_cases hb : b = .free
  · subst hb
    simp [fresh, List.nodup_range]
  · simp [fresh, hb]

theorem basic_start (lapicId : ℕ) : Basic lapicId ⟨init lapicId zeroed, 0, [], []⟩ := by
  rw [init_eq]
  exact ⟨⟨fresh_apart _ _ _, (fun _ _ h => nomatch h), (fun _ _ _ h => nomatch h)⟩, by simp [State.regs, fresh, u64],
    (fun _ h => nomatch h), (fun _ h => nomatch h)⟩

theorem Run.basic (h : Run lapicId m) : Basic lapicId m := by
  induction h with
  | start => exact basic_start lapicId
  | step _ hstep ih => exact ih.step hstep

theorem track_step (hb : Basic lapicId m) (h : Step m m')
    (ih : ∀ i c, m.created[i]? = some c → c.InReach → Track m i c) (hi : m'.created[i]? = some c) (hc : c.InReach) :
    Track m' i c := by
  rcases step_cases hb h with ⟨fuel, e, s', d, hborn, hlt, hcreate, rfl⟩ | rfl | ⟨fuel, s', htick, rfl⟩
  · rcases Nat.lt_trichotomy i m.created.length with hlen | rfl | hlen
    · rw [List.getElem?_append_left hlen] at hi
      exact (ih i c hi hc).create hb.called_tags hlen.ne hcreate
    · obtain rfl : d = c := by simpa using hi
      obtain ⟨hcur, -, htick, -⟩ := State.regs_eq hb.regs
      have hwait := create_waiting hc (by rw [hborn]; exact hcur) (by rw [hborn]; exact htick) rfl hcreate
      have hpos := hc.reach.1
      rw [hborn] at hwait hpos
      refine ⟨fun _ => ?_, fun hn => absurd hpos (not_lt.mpr hn), fun hn => absurd hpos (not_lt.mpr hn)⟩
      rw [firings_append, firings_nil hb le_rfl, hwait.quiet]
      exact ⟨rfl, hwait.called⟩
    · have := (List.getElem?_eq_some_iff.mp hi).1
      simp only [List.length_append, List.length_singleton] at this
      omega
  · have h := ih i c hi hc
    exact ⟨h.before, h.onTime, h.late⟩
  · obtain ⟨hlt, hborn⟩ := hb.valid c (List.mem_of_getElem? hi)
    exact (ih i c hi hc).tick hb hc hlt hborn htick

theorem Run.track (h : Run lapicId m) : ∀ i c, m.created[i]? = some c → c.InReach → Track m i c := by
  induction h with
  | start => intro i c hi; exact nomatch hi
  | step hrun hstep ih => exact fun i c hi hc => track_step hrun.basic hstep ih hi hc

end Tori.Timer
