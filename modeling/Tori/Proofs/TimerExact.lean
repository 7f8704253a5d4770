import Tori.Proofs.Timer

/-! A run whose timers stay on level 0 or fire on time can always take one more `tick()`: no loop of the wheel puts an
entry back into the bucket it empties. With it, the `tick()` call in which a one-shot timer runs. -/

namespace Tori.Timer

open Word Loop Buckets Function

variable {s s' s₁ : State ℕ} {m m' : Machine} {c : Creation} {b : Bucket} {fuel lapicId i e n N : ℕ}

variable {cursor l1Cursor : ℕ}

/-- An entry that is never put on level 1. -/
structure Short (s : State ℕ) (e : ℕ) : Prop where
  callback : (s.pool e).callback ≠ none
  period : (s.pool e).periodTicks < 256

/-- A timer with deadline `d` leaves the bucket `k` when that is cascaded in the `tick()` call `t`: it fires, or its
slot has changed. -/
def Leaves (d k t : ℕ) : Prop :=
  d = t ∨ u64 d + 65536 < 2 ^ 64 ∧ t ≤ d + 65536 ∧ d < t + 65536 ∧ d - t ≤ u64 d ∧ (d - t) / 256 ≠ k + 1

/-- An entry of the level-1 bucket `k` that leaves the bucket when it is cascaded next. -/
structure Due (s : State ℕ) (n e k : ℕ) : Prop where
  short : Short s e
  slot : k < 256
  leaves : ∃ d, (s.pool e).deadlineTicks = u64 d ∧ ∀ t, n < t → t ≤ n + 65536 → t % 65536 = 256 * (k + 1) % 65536 →
    Leaves d k t

structure Calm (s : State ℕ) (n : ℕ) : Prop where
  level0 : ∀ k, ∀ e ∈ s.lists (.level0 k), Short s e
  level1 : ∀ k, ∀ e ∈ s.lists (.level1 k), Due s n e k

theorem Short.of_pool (h : Short s e) (hpool : s'.pool e = s.pool e) : Short s' e := ⟨hpool ▸ h.callback, hpool ▸ h.period⟩

variable {k t D : ℕ}

theorem Due.of_pool (h : Due s n e k) (hpool : s'.pool e = s.pool e) : Due s' n e k :=
  ⟨h.short.of_pool hpool, h.slot, hpool ▸ h.leaves⟩

theorem Calm.same (h : Calm s n) (hs : SameEntries s s') : Calm s' n := by
  obtain ⟨hlists, hpool, -⟩ := hs
  refine ⟨fun k e he => ?_, fun k e he => ?_⟩
  · rw [hlists] at he
    exact (h.level0 k e he).of_pool (by rw [hpool])
  · rw [hlists] at he
    exact (h.level1 k e he).of_pool (by rw [hpool])

theorem Calm.called (h : Calm s n) : Calm { s with calls := [] } n :=
  ⟨fun k e he => (h.level0 k e he).of_pool rfl, fun k e he => (h.level1 k e he).of_pool rfl⟩

/-- Only the entry that is moved has to be looked at. -/
theorem Calm.moved (h : Calm s n) (hap : Apart s.lists) (hm : Moved b e s s')
    (he₀ : ∀ k, e ∈ s'.lists (.level0 k) → Short s' e) (he₁ : ∀ k, e ∈ s'.lists (.level1 k) → Due s' n e k) :
    Calm s' n := by
  obtain ⟨-, d, hmem⟩ := hm.lists hap
  refine ⟨fun k x hx => ?_, fun k x hx => ?_⟩
  · by_cases hxe : x = e
    · exact hxe ▸ he₀ k (hxe ▸ hx)
    · have hold := ((hmem x _).mp hx).resolve_right fun h => hxe h.2
      exact (h.level0 k x hold.1).of_pool (hm.pool hxe)
  · by_cases hxe : x = e
    · exact hxe ▸ he₁ k (hxe ▸ hx)
    · have hold := ((hmem x _).mp hx).resolve_right fun h => hxe h.2
      exact (h.level1 k x hold.1).of_pool (hm.pool hxe)

/-! ### Firing a short timer -/

/-- `place` keeps what the entry asks for, and uses level 1 for 256 ticks and more. -/
theorem place_spec (e r : ℕ) (s : State ℕ) : (Short s e → Short (place e r s) e) ∧
    ((place e r s).pool e).deadlineTicks = (s.pool e).deadlineTicks ∧
    ∃ b, (place e r s).lists = push s.lists b e ∧ ∀ k, b = .level1 k → 256 ≤ r ∧ k = level1Slot r := by
  unfold place
  split_ifs with hnear
  · refine ⟨fun h => ⟨?_, ?_⟩, ?_, _, rfl, fun k hb => by cases hb⟩
    · simpa [insertLevel0, pushBack, State.setEntry] using h.callback
    · simpa [insertLevel0, pushBack, State.setEntry] using h.period
    · simp [insertLevel0, pushBack, State.setEntry]
  · refine ⟨fun h => ⟨?_, ?_⟩, ?_, _, rfl, fun k hb => ⟨not_lt.mp hnear, (Bucket.level1.inj hb).symm⟩⟩
    · simpa [insertLevel1, pushBack, State.setEntry] using h.callback
    · simpa [insertLevel1, pushBack, State.setEntry] using h.period
    · simp [insertLevel1, pushBack, State.setEntry]

/-- The entry is freed, or put into a level-0 bucket away from the cursor. -/
def Settled (e : ℕ) (s s' : State ℕ) : Prop :=
  s'.lists = push s.lists .free e ∨
    ∃ k, k ≠ s.cursor ∧ s'.lists = push s.lists (.level0 k) e ∧ Short s' e

theorem gap_bounds {p : ℕ} (hpos : 0 < p) (hlt : p < 256) (now : ℕ) : 0 < gap p now ∧ gap p now < 256 := by
  unfold gap
  split_ifs <;> omega

/-- A short periodic timer is re-armed on level 0. -/
theorem fireEntry_short {a : ℕ} (fuel : ℕ) (ha : (s.pool e).callback = some a) (hpos : 0 < (s.pool e).periodTicks)
    (hlt : (s.pool e).periodTicks < 256) (htick : s.tickCount < 2 ^ 64) :
    fireEntry fuel e s = if fuel = 0 then none else
      some (insertLevel0 e (gap (s.pool e).periodTicks s.tickCount) (State.setEntry { s with calls := s.calls ++ [a] } e
        { s.pool e with deadlineTicks := u64 (s.tickCount + (s.pool e).periodTicks) })) := by
  have hcall : runCallback e s = some { s with calls := s.calls ++ [a] } := by simp only [runCallback, ha]
  unfold fireEntry
  rw [hcall]
  dsimp only [rearmOrFree]
  rw [if_pos hpos]
  cases fuel with
  | zero => rfl
  | succ fuel =>
    generalize hs₁ : State.setEntry { s with calls := s.calls ++ [a] } e
      { s.pool e with deadlineTicks := u64 (s.tickCount + (s.pool e).periodTicks) } = s₁
    have hrem : max (remainingTicks e s₁) 1 = gap (s.pool e).periodTicks s.tickCount := by
      simp only [← hs₁, remainingTicks, State.setEntry, update_self, gap]
      unfold u64
      split_ifs <;> omega
    have hgap := gap_bounds hpos hlt s.tickCount
    rw [insertEntry_place fuel (by omega), hrem, place, if_pos hgap.2]
    rfl

theorem fire_settled (hshort : Short s e) (htick : s.tickCount < 2 ^ 64)
    (h : fireEntry fuel e s = some s') : Settled e s s' := by
  obtain ⟨a, ha⟩ := Option.ne_none_iff_exists'.mp hshort.callback
  rcases Nat.eq_zero_or_pos (s.pool e).periodTicks with hone | hpos
  · exact .inl (fireEntry_oneshot ha hone h).2.2
  · rw [fireEntry_short fuel ha hpos hshort.period htick] at h
    split_ifs at h
    obtain rfl := Option.some.inj h
    have hgap := gap_bounds hpos hshort.period s.tickCount
    refine .inr ⟨(s.cursor + gap (s.pool e).periodTicks s.tickCount) % bucketCount, ?_, rfl, ?_, ?_⟩
    · rw [bucketCount]
      omega
    · simpa [insertLevel0, pushBack, State.setEntry] using hshort.callback
    · simpa [insertLevel0, pushBack, State.setEntry] using hshort.period

theorem fire_returns (hshort : Short s e) (htick : s.tickCount < 2 ^ 64) (hlock : s.locked = false) (hfuel : 0 < fuel) :
    ∃ s', fireEntry fuel e s = some s' := by
  obtain ⟨a, ha⟩ := Option.ne_none_iff_exists'.mp hshort.callback
  rcases Nat.eq_zero_or_pos (s.pool e).periodTicks with hone | hpos
  · simp [fireEntry, runCallback, ha, rearmOrFree, hone, freeEntry, withLock, State.setEntry, hlock]
  · rw [fireEntry_short fuel ha hpos hshort.period htick, if_neg hfuel.ne']
    exact ⟨_, rfl⟩

/-! ### A `tick()` call -/

theorem Settled.lists_of_ne (h : Settled e s s') (hfree : b ≠ .free) (hb : ∀ k, b = .level0 k → k = s.cursor) :
    s'.lists b = s.lists b := by
  rcases h with h | ⟨k, hk, h, -⟩
  · rw [h, push, update_of_ne hfree]
  · rw [h, push, update_of_ne]
    rintro rfl
    exact hk (hb k rfl)

/-- A short entry is taken from a bucket that nothing is put into, and fires. -/
theorem Calm.fire_round (h : Calm s n) (fuel : ℕ) (hap : Apart s.lists) (htick : s.tickCount < 2 ^ 64)
    (hlock : s.locked = false) (hpop : popFront b s = some (e, s₁)) (hshort : Short s e) (hfree : b ≠ .free)
    (hb : ∀ k, b = .level0 k → k = s.cursor) :
    (0 < fuel → ∃ s', fireEntry fuel e s₁ = some s') ∧ ∀ s', fireEntry fuel e s₁ = some s' → Calm s' n ∧
      (s'.lists b).length < (s.lists b).length ∧ ∀ k, b ≠ .level1 k → s'.lists (.level1 k) = s.lists (.level1 k) := by
  obtain ⟨rest, hlist, rfl⟩ := popFront_spec hpop
  have hshort : Short { s with lists := update s.lists b rest } e := hshort.of_pool rfl
  have hout := (hap.pop hlist).2
  refine ⟨fire_returns hshort htick hlock, fun s' hrun => ?_⟩
  have hs := fire_settled hshort htick hrun
  refine ⟨h.moved hap ⟨_, hpop, fireEntry_handled hrun⟩ (fun k he => ?_) (fun k he => ?_), ?_, fun k hk => ?_⟩
  · rcases hs with hs | ⟨_, _, _, hshort⟩
    · rw [hs, mem_push] at he
      exact absurd he (by simp [hout])
    · exact hshort
  · rw [hs.lists_of_ne (by simp) (by simp)] at he
    exact absurd he (hout _)
  · rw [hs.lists_of_ne hfree hb]
    simp [hlist]
  · rw [hs.lists_of_ne (by simp) (by simp)]
    simp only [update_of_ne hk.symm]

theorem tickCount_lt {initialized locked : Bool}
    (h : s.regs = (cursor, l1Cursor, u64 n, initialized, lapicId, locked)) : s.tickCount < 2 ^ 64 := by
  rw [(State.regs_eq h).2.2.1]
  exact u64_lt n

/-- One round of the first loop. -/
theorem Calm.level0_round (h : Calm s n) (fuel : ℕ) (hap : Apart s.lists)
    (hregs : s.regs = (cursor, l1Cursor, u64 t, true, lapicId, false))
    (hpop : popFront (.level0 cursor) s = some (e, s₁)) :
    (0 < fuel → ∃ s', fireEntry fuel e s₁ = some s') ∧ ∀ s', fireEntry fuel e s₁ = some s' →
      Calm s' n ∧ (s'.lists (.level0 cursor)).length < (s.lists (.level0 cursor)).length ∧
        ∀ k, s'.lists (.level1 k) = s.lists (.level1 k) := by
  obtain ⟨hcur, -, -, -, -, hlock⟩ := State.regs_eq hregs
  obtain ⟨rest, hlist, -⟩ := popFront_spec hpop
  obtain ⟨hreturns, hround⟩ := h.fire_round fuel hap (tickCount_lt hregs) hlock hpop
    (h.level0 cursor e (by rw [hlist]; exact List.mem_cons_self)) (by simp)
    (fun k hk => by rw [hcur]; exact (Bucket.level0.inj hk).symm)
  refine ⟨hreturns, fun s' hrun => ?_⟩
  obtain ⟨hcalm, hlen, hlevel1⟩ := hround s' hrun
  exact ⟨hcalm, hlen, fun k => hlevel1 k (by simp)⟩

theorem Leaves.remaining {d : ℕ} (h : Leaves d k t) (hd : (s.pool e).deadlineTicks = u64 d)
    (ht : s.tickCount = u64 t) : remainingTicks e s = d - t := by
  rw [remainingTicks, hd, ht]
  unfold Leaves u64 at *
  split_ifs <;> omega

/-- The entry fires, goes to level 0, or goes to another bucket of level 1, from which it will go on. -/
theorem Due.cascaded (h : Due s₁ n e k) (fuel : ℕ) (hk : (n + 1) % 65536 = 256 * (k + 1) % 65536)
    (htick : s₁.tickCount = u64 (n + 1)) :
    cascadeEntry fuel e s₁ = fireEntry fuel e s₁ ∨ ∃ r, cascadeEntry fuel e s₁ = some (place e r s₁) ∧
      (256 ≤ r → level1Slot r ≠ k ∧ Due (place e r s₁) n e (level1Slot r)) := by
  obtain ⟨d, hd, hleaves⟩ := h.leaves
  have hnow := hleaves (n + 1) (by omega) (by omega) hk
  have hr := hnow.remaining hd htick
  rcases Nat.eq_zero_or_pos (d - (n + 1)) with hzero | hpos
  · exact .inl (by rw [cascadeEntry, hr, if_pos hzero])
  · obtain ⟨hwrap, -, hlt, hborrow, hne⟩ := hnow.resolve_left (by omega)
    refine .inr ⟨d - (n + 1), cascadeEntry_place fuel hr hpos, fun hfar => ?_⟩
    obtain ⟨hshort, hsame, -⟩ := place_spec e (d - (n + 1)) s₁
    have hslot := h.slot
    rw [level1Slot_eq hfar (by omega)]
    refine ⟨by omega, hshort h.short, by omega, d, hsame.trans hd, fun t hn hle ht => .inr ⟨hwrap, ?_, ?_, ?_, ?_⟩⟩ <;> omega

/-- One round of the second loop. -/
theorem Calm.cascade_round (h : Calm s n) (fuel : ℕ) (hap : Apart s.lists)
    (hregs : s.regs = (0, l1Cursor, u64 (n + 1), true, lapicId, false))
    (hl1 : (n + 1) % 65536 = 256 * (l1Cursor + 1) % 65536) (hpop : popFront (.level1 l1Cursor) s = some (e, s₁)) :
    (0 < fuel → ∃ s', cascadeEntry fuel e s₁ = some s') ∧ ∀ s', cascadeEntry fuel e s₁ = some s' →
      Calm s' n ∧ (s'.lists (.level1 l1Cursor)).length < (s.lists (.level1 l1Cursor)).length := by
  obtain ⟨hcur, -, htick, -, -, hlock⟩ := State.regs_eq hregs
  obtain ⟨rest, hlist, hs₁⟩ := popFront_spec hpop
  have hdue := h.level1 l1Cursor e (by rw [hlist]; exact List.mem_cons_self)
  have hdue₁ : Due s₁ n e l1Cursor := hdue.of_pool (by rw [hs₁])
  rcases hdue₁.cascaded fuel hl1 (by rw [hs₁]; exact htick) with hfire | ⟨r, hplace, hfar⟩
  · rw [hfire]
    obtain ⟨hreturns, hround⟩ := h.fire_round fuel hap (tickCount_lt hregs) hlock hpop hdue.short (by simp) (by simp)
    exact ⟨hreturns, fun s' hrun => ⟨(hround s' hrun).1, (hround s' hrun).2.1⟩⟩
  · refine ⟨fun _ => ⟨_, hplace⟩, fun s' hrun => ?_⟩
    have hm : Moved (.level1 l1Cursor) e s s' := ⟨s₁, hpop, cascadeEntry_handled hrun⟩
    obtain rfl := Option.some.inj (hplace.symm.trans hrun)
    have hout : ∀ b, e ∉ s₁.lists b := by
      rw [hs₁]
      exact (hap.pop hlist).2
    have hrest : (s₁.lists (.level1 l1Cursor)).length < (s.lists (.level1 l1Cursor)).length := by simp [hs₁, hlist]
    obtain ⟨hshort', -, b, hlists, hb⟩ := place_spec e r s₁
    have hin : ∀ d, e ∈ (place e r s₁).lists d → d = b := fun d he => by
      rw [hlists, mem_push] at he
      exact (he.resolve_left (hout d)).1
    refine ⟨h.moved hap hm (fun k _ => hshort' hdue₁.short) (fun k he => ?_), ?_⟩
    · obtain ⟨hr, hk⟩ := hb k (hin _ he).symm
      rw [hk]
      exact (hfar hr).2
    · rw [hlists, push, update_of_ne]
      · exact hrest
      · rintro rfl
        obtain ⟨hr, hk⟩ := hb _ rfl
        exact (hfar hr).1 hk.symm

theorem Calm.next (h : Calm s n) (hl : (n + 1) % 256 = 0 → s.lists (.level1 (n / 256 % 256)) = []) :
    Calm s (n + 1) := by
  refine ⟨h.level0, fun k e he => ?_⟩
  obtain ⟨hshort, hk, d, hd, hleaves⟩ := h.level1 k e he
  refine ⟨hshort, hk, d, hd, fun t hn hle ht => hleaves t (by omega) ?_ ht⟩
  by_contra hnot
  obtain rfl : k = n / 256 % 256 := by omega
  rw [hl (by omega)] at he
  cases he

theorem Calm.tick (h : Calm m.called m.ticks) (hb : Basic lapicId m)
    (htick : Timer.tick fuel m.state.bspLapicId m.called = some s') : Calm s' (m.ticks + 1) := by
  obtain ⟨s₁, hdrain, hrest, -⟩ := tick_phases hb htick
  have hs₁ := (drain_rule (fun _ _ _ => fireEntry_handled) (P := fun s => Calm s m.ticks)
    (fun e s₁ s₂ s₃ htags hregs hcalm hpop hrun _ =>
      ((hcalm.level0_round _ htags.apart (hregs.trans hb.ticked_regs) hpop).2 s₃ hrun).1)
    hb.ticked_tags (h.same ⟨rfl, rfl, rfl⟩) hdrain).2.2.1
  rcases hrest with ⟨hwrap, hsame⟩ | ⟨hwrap, s₂, s₃, hsame₂, htags₂, hregs₂, hcascade, hsame⟩
  · exact (hs₁.same hsame).next fun h => absurd h hwrap
  · obtain ⟨-, -, hs₃, hempty⟩ := drain_rule (fun _ _ _ => cascadeEntry_handled) (P := fun s => Calm s m.ticks)
      (fun e s₁ s₂ s₃ htags hregs hcalm hpop hrun _ =>
        ((hcalm.cascade_round _ htags.apart (hregs.trans hregs₂) (by omega) hpop).2 s₃ hrun).1)
      htags₂ (hs₁.same hsame₂) hcascade
    exact (hs₃.same hsame).next fun _ => by rw [hsame.1, hempty]

theorem Calm.level0_returns (h : Calm s n) (htags : Tags N s)
    (hregs : s.regs = (cursor, l1Cursor, u64 t, true, lapicId, false))
    (hfuel : (s.lists (.level0 cursor)).length < fuel) :
    ∃ s', drain (popFront (.level0 cursor)) (fireEntry fuel) fuel s = some s' ∧ Tags N s' ∧ s'.regs = s.regs ∧
      Calm s' n ∧ ∀ k, s'.lists (.level1 k) = s.lists (.level1 k) := by
  refine drain_ends (fun _ _ _ => fireEntry_handled) htags (by exact ⟨h, fun _ => rfl⟩) hfuel ?_
  intro e s₁ s₂ htags₁ hregs₁ hP hpop
  obtain ⟨hreturns, hround⟩ := hP.1.level0_round fuel htags₁.apart (hregs₁.trans hregs) hpop
  obtain ⟨s₃, hrun⟩ := hreturns (by omega)
  obtain ⟨hcalm, hlen, hlevel1⟩ := hround s₃ hrun
  exact ⟨s₃, hrun, ⟨hcalm, fun k => (hlevel1 k).trans (hP.2 k)⟩, hlen⟩

theorem Calm.cascade_returns (h : Calm s n) (htags : Tags N s)
    (hregs : s.regs = (0, l1Cursor, u64 (n + 1), true, lapicId, false))
    (hl1 : (n + 1) % 65536 = 256 * (l1Cursor + 1) % 65536) (hfuel : (s.lists (.level1 l1Cursor)).length < fuel) :
    ∃ s', drain (popFront (.level1 l1Cursor)) (cascadeEntry fuel) fuel s = some s' ∧ Tags N s' ∧ s'.regs = s.regs ∧
      Calm s' n := by
  refine drain_ends (fun _ _ _ => cascadeEntry_handled) htags h hfuel ?_
  intro e s₁ s₂ htags₁ hregs₁ hcalm hpop
  obtain ⟨hreturns, hround⟩ := hcalm.cascade_round fuel htags₁.apart (hregs₁.trans hregs) hl1 hpop
  obtain ⟨s₃, hrun⟩ := hreturns (by omega)
  exact ⟨s₃, hrun, hround s₃ hrun⟩

theorem Calm.tick_returns (h : Calm m.called m.ticks) (hb : Basic lapicId m) :
    ∃ fuel s', Timer.tick fuel m.state.bspLapicId m.called = some s' := by
  obtain ⟨hcur, -, -, hinit, -, -⟩ := State.regs_eq hb.regs
  generalize hfuel : (m.state.lists (.level0 (m.ticks % 256))).length +
    (m.state.lists (.level1 (m.ticks / 256 % 256))).length + 1 = fuel
  have hcalm : Calm m.ticked m.ticks := h.same ⟨rfl, rfl, rfl⟩
  have hlen : (m.ticked.lists (.level0 (m.ticks % 256))).length < fuel := by
    rw [← hfuel]
    exact Nat.lt_succ_of_le (Nat.le_add_right _ _)
  obtain ⟨s₁, hdrain, htags₁, hregs₁, hcalm₁, hlevel1⟩ := hcalm.level0_returns hb.ticked_tags hb.ticked_regs hlen
  obtain ⟨hcur₁, hl1₁, htick₁, hinit₁, hlapic₁, hlock₁⟩ := State.regs_eq (hregs₁.trans hb.ticked_regs)
  refine ⟨fuel, ?_⟩
  have hrw : drain (popFront (.level0 m.called.cursor)) (fireEntry fuel) fuel
      { m.called with tickCount := inc m.called.tickCount } = some s₁ := by
    rw [show m.called.cursor = m.ticks % 256 from hcur]
    exact hdrain
  unfold Timer.tick
  rw [if_neg (by simp [Machine.called, hinit]), if_neg (by simp [Machine.called]), hrw]
  dsimp only
  split_ifs with hwrap
  · -- the first loop left level 1 alone, so the bound covers the second one
    have hregs₂ : State.regs { s₁ with cursor := 0 } = (0, m.ticks / 256 % 256, u64 (m.ticks + 1), true, lapicId, false) := by
      simp only [State.regs, hl1₁, htick₁, hinit₁, hlapic₁, hlock₁]
    have hlen₂ : (s₁.lists (.level1 (m.ticks / 256 % 256))).length < fuel := by
      rw [hlevel1, ← hfuel]
      exact Nat.lt_succ_of_le (Nat.le_add_left _ _)
    rw [bucketCount, hcur₁] at hwrap
    have hcalm₂ : Calm { s₁ with cursor := 0 } m.ticks := hcalm₁.same ⟨rfl, rfl, rfl⟩
    obtain ⟨s₂, hcascade, -⟩ := hcalm₂.cascade_returns (htags₁.same rfl rfl) hregs₂ (by omega) hlen₂
    rw [← hl1₁] at hcascade
    exact ⟨_, Option.map_eq_some_iff.mpr ⟨s₂, hcascade, rfl⟩⟩
  · exact ⟨_, rfl⟩

/-! ### Runs of tame timers -/

theorem create_placed (hnear : c.deadline < c.time + 65536) (hshort : c.period < 256) (htags : Tags N s)
    (htick : s.tickCount = c.time) (h : create fuel c.deadline c.period (some N) s = some (some e, s')) :
    Short s' e ∧ (s'.pool e).deadlineTicks = c.deadline ∧
      ∀ k, e ∈ s'.lists (.level1 k) → c.time + 256 ≤ c.deadline ∧ k + 1 = (c.deadline - c.time) / 256 := by
  obtain ⟨s₁, rest, harm, hlist, hlists, -, rfl⟩ := create_near h htick hnear
  obtain ⟨hkeep, hsame, b, hplace, hb⟩ := place_spec e (max (c.deadline - c.time) 1) s₁
  refine ⟨(hkeep ⟨by rw [harm.callback]; simp, by rw [harm.period]; exact hshort⟩).of_pool rfl, hsame.trans harm.deadline,
    fun k he => ?_⟩
  have he : e ∈ push s₁.lists b e (.level1 k) := hplace ▸ he
  rw [hlists] at he
  obtain ⟨hfar, hk⟩ := hb k ((mem_push.mp he).resolve_left ((htags.apart.pop hlist).2 _)).1.symm
  rw [level1Slot_eq hfar (by omega)] at hk
  omega

/-- The bucket that the timer is put into is cascaded at the deadline, or the timer has another slot by then. -/
theorem Creation.Safe.leaves (hc : c.Safe) (hlt : c.deadline < 2 ^ 64) (hfar : c.time + 256 ≤ c.deadline)
    (hk : k + 1 = (c.deadline - c.time) / 256) (hn : c.born < t) (hle : t ≤ c.born + 65536)
    (ht : t % 65536 = 256 * (k + 1) % 65536) : Leaves c.deadlineTick k t := by
  obtain ⟨-, hnear, hplaced⟩ := hc
  obtain ⟨hstuck, hot | hwrap⟩ := hplaced hfar
  · obtain ⟨-, haligned, hslot⟩ := hot
    left
    unfold Creation.deadlineTick Creation.time u64 at *
    omega
  · right
    have hnot : ¬ ((c.time / 256 + 1) % 256 = (c.deadline - c.time) / 256 ∧
        256 ≤ c.time % 256 + (c.deadline - c.time) % 256) := fun h => hstuck ⟨h.1, h.2⟩
    unfold Creation.deadlineTick Creation.time u64 at *
    refine ⟨?_, ?_, ?_, ?_, ?_⟩ <;> omega

theorem Calm.create (h : Calm s c.born) (hc : c.Safe) (hlt : c.deadline < 2 ^ 64) (htags : Tags N s)
    (htick : s.tickCount = u64 c.born)
    (hcreate : Timer.create fuel c.deadline c.period (some N) s = some (some e, s')) : Calm s' c.born := by
  obtain ⟨t, -, htags₁, hm⟩ := create_moved htags hcreate
  have hcalm : Calm (s.setEntry e t) c.born := by
    have hpool : ∀ x b, b ≠ Bucket.free → x ∈ s.lists b → (s.setEntry e t).pool x = s.pool x := by
      intro x b hb hx
      refine update_of_ne ?_ _ _
      rintro rfl
      exact hb (htags.apart.once _ _ x hx hm.front)
    exact ⟨fun k x hx => (h.level0 k x hx).of_pool (hpool x _ (by simp) hx),
      fun k x hx => (h.level1 k x hx).of_pool (hpool x _ (by simp) hx)⟩
  obtain ⟨hshort, hdeadline, hlevel1⟩ := create_placed hc.near hc.short htags htick hcreate
  refine hcalm.moved htags₁.apart hm (fun _ _ => hshort) (fun k he => ?_)
  obtain ⟨hfar, hk⟩ := hlevel1 k he
  have hnear := hc.near
  refine ⟨hshort, by omega, c.deadlineTick, hdeadline.trans ?_, fun t hn hle ht => hc.leaves hlt hfar hk hn hle ht⟩
  unfold Creation.deadlineTick Creation.time u64 at *
  omega

theorem Creation.Tame.safe (hc : c.Tame) : c.Safe := by
  refine ⟨hc.short, ?_, fun hfar => ?_⟩
  · rcases hc.placed with hnear | ⟨hreach, -⟩
    · omega
    · exact Nat.lt_succ_of_le hreach.near
  · obtain ⟨hreach, hot⟩ := hc.placed.resolve_left (not_lt.mpr hfar)
    refine ⟨fun hstuck => ?_, .inl hot⟩
    obtain ⟨hslot, hearly⟩ := hstuck
    obtain ⟨-, haligned, hplace⟩ := hot
    omega

theorem Run.calm (h : Run lapicId m) (hsafe : ∀ c ∈ m.created, c.Safe) : Calm m.called m.ticks := by
  induction h with
  | start =>
    rw [init_eq]
    exact ⟨(fun k e he => by cases fresh_free he), (fun k e he => by cases fresh_free he)⟩
  | @step m m' hrun hstep ih =>
    have hb := hrun.basic
    rcases step_cases hb hstep with ⟨fuel, e, s', c, hborn, hlt, hcreate, rfl⟩ | rfl | ⟨fuel, s', htick, rfl⟩
    · have hcalm := ih fun d hd => hsafe d (List.mem_append_left _ hd)
      obtain ⟨-, -, htick, -⟩ := State.regs_eq hb.regs
      rw [← hborn] at hcalm htick
      have hs' := hcalm.create (hsafe c (by simp)) hlt hb.called_tags htick hcreate
      rw [hborn] at hs'
      exact hs'.called
    · exact ih hsafe
    · exact ((ih hsafe).tick hb htick).called

/-- A run of tame timers can take another `tick()`. -/
theorem Run.tick_next (h : Run lapicId m) (htame : ∀ c ∈ m.created, c.Tame) :
    ∃ m', Step m m' ∧ m'.ticks = m.ticks + 1 ∧ m'.created = m.created := by
  obtain ⟨fuel, s', hs'⟩ := (h.calm fun c hc => (htame c hc).safe).tick_returns h.basic
  exact ⟨_, .tick hs', rfl, rfl⟩

/-- A one-shot timer within reach runs in the `tick()` call that makes the tick count equal to its deadline exactly if it
is on time, and then it runs only there; and if all timers are tame, that call is reached. -/
theorem oneshot_exact_iff (hrun : Run lapicId m) :
    m.state.tickCount = u64 m.ticks ∧
    (∀ i c, m.created[i]? = some c → c.InReach → u64 c.deadlineTick = c.deadline ∧
      (m.ticks < c.deadlineTick → firings m i = []) ∧
      (c.deadlineTick ≤ m.ticks → (firings m i = [some c.deadlineTick] ↔ c.OnTime))) ∧
    ((∀ c ∈ m.created, c.Tame) → ∃ m', Step m m' ∧ m'.ticks = m.ticks + 1 ∧ m'.created = m.created) := by
  obtain ⟨-, -, htick, -⟩ := State.regs_eq hrun.basic.regs
  refine ⟨htick, fun i c hi hc => ?_, hrun.tick_next⟩
  have htrack := hrun.track i c hi hc
  obtain ⟨hlt, -⟩ := hrun.basic.valid c (List.mem_of_getElem? hi)
  refine ⟨?_, fun hn => (htrack.before hn).1, fun hn => ⟨fun hf => ?_, fun hot => (htrack.onTime hn hot).1⟩⟩
  · have hnow := hc.now_eq hlt hc.reach.1.le le_rfl
    rwa [Nat.sub_self, Nat.add_zero] at hnow
  · by_contra hot
    exact htrack.late hn hot (by rw [hf]; exact List.mem_singleton_self _)

theorem locked_insert_returns (fuel : ℕ) (h : remainingTicks e s < 65536) (hl : s.locked = false) :
    ∃ s', withLock (insertEntry (fuel + 1) e) s = some s' := by
  rw [withLock, if_neg (by simp [hl]), insertEntry_place fuel (s := { s with locked := true }) h]
  exact ⟨_, rfl⟩

theorem create_first (lapicId period : ℕ) (hD : D < 65536) :
    ∃ s', create 1 D period (some 0) (fresh lapicId maxEntries true) = some (some 0, s') := by
  obtain ⟨rest, hrange⟩ : ∃ rest, List.range maxEntries = 0 :: rest := ⟨_, List.range_succ_eq_map⟩
  have hpop : popFront .free (fresh lapicId maxEntries true) =
      some (0, { fresh lapicId maxEntries true with lists := update (fun _ => []) .free rest }) := by
    simp [popFront, fresh, hrange]
  rw [create, allocEntry, if_neg (by simp [fresh]), hpop]
  dsimp only
  obtain ⟨s', hs'⟩ := locked_insert_returns (s := State.setEntry { fresh lapicId maxEntries true with
    lists := update (fun _ => []) .free rest } 0 ⟨D, period, some 0, 0, 0⟩) (e := 0) 0
    (by simp only [remainingTicks, State.setEntry, fresh, update_self]; split_ifs <;> omega) rfl
  exact ⟨s', Option.map_eq_some_iff.mpr ⟨s', hs', rfl⟩⟩

/-- One timer, created before the first `tick()`, and `n` calls of `tick()`. -/
theorem run_alone (lapicId D period : ℕ) (htame : Creation.Tame ⟨0, D, period⟩) (hD : D < 65536) :
    ∀ n, ∃ m, Run lapicId m ∧ m.ticks = n ∧ m.created = [⟨0, D, period⟩] := by
  intro n
  induction n with
  | zero =>
    have hrun : Run lapicId ⟨fresh lapicId maxEntries true, 0, [], []⟩ := init_eq lapicId ▸ Run.start
    obtain ⟨s', hs'⟩ := create_first lapicId period hD
    rcases Nat.eq_zero_or_pos period with rfl | hpos
    · exact ⟨_, .step hrun (.oneshot (by omega) hs'), rfl, rfl⟩
    · have hu : u64 (0 + D) = D := by
        unfold u64
        omega
      have hcall : createPeriodic 1 D period (some 0) (fresh lapicId maxEntries true) = some (some 0, s') := by
        rw [createPeriodic, if_neg (by simp [fresh, hpos.ne']), ← hs', fresh, hu]
      have hshort : period < 256 := htame.short
      exact ⟨_, .step hrun (.periodic (by omega) (by omega) hcall), rfl, by
        rw [show (fresh lapicId maxEntries true).tickCount = 0 from rfl, hu]
        rfl⟩
  | succ n ih =>
    obtain ⟨m, hrun, hticks, hcreated⟩ := ih
    obtain ⟨m', hstep, hticks', hcreated'⟩ := hrun.tick_next (by rw [hcreated]; simpa using htame)
    exact ⟨m', .step hrun hstep, by rw [hticks', hticks], hcreated'.trans hcreated⟩

theorem oneshot_exact_256 : ∃ m, Run 0 m ∧ m.created = [⟨0, 256, 0⟩] ∧ m.ticks = 300 ∧ firings m 0 = [some 256] := by
  have hreach : Creation.InReach ⟨0, 256, 0⟩ := ⟨rfl, by decide, by decide⟩
  have hot : Creation.OnTime ⟨0, 256, 0⟩ := ⟨by decide, by decide, by decide⟩
  obtain ⟨m, hrun, hticks, hcreated⟩ := run_alone 0 256 0 ⟨by decide, Or.inr ⟨hreach, hot⟩⟩ (by decide) 300
  obtain ⟨-, hexact, -⟩ := oneshot_exact_iff hrun
  obtain ⟨-, -, hafter⟩ := hexact 0 ⟨0, 256, 0⟩ (by rw [hcreated]; rfl) hreach
  exact ⟨m, hrun, hcreated, hticks, (hafter (by rw [hticks]; decide)).mpr hot⟩

/-- A timer created before the first `tick()` with deadline 1 does not run in the call that makes the tick count 1. -/
theorem oneshot_1_late : ∃ m, Run 0 m ∧ m.created = [⟨0, 1, 0⟩] ∧ m.ticks = 1 ∧ m.state.tickCount = 1 ∧
    some 1 ∉ firings m 0 := by
  have hreach : Creation.InReach ⟨0, 1, 0⟩ := ⟨rfl, by decide, by decide⟩
  obtain ⟨m, hrun, hticks, hcreated⟩ := run_alone 0 1 0 ⟨by decide, Or.inl (by decide)⟩ (by decide) 1
  have htrack := hrun.track 0 ⟨0, 1, 0⟩ (by rw [hcreated]; rfl) hreach
  obtain ⟨-, -, htick, -⟩ := State.regs_eq hrun.basic.regs
  refine ⟨m, hrun, hcreated, hticks, by rw [htick, hticks]; rfl, htrack.late (by rw [hticks]; decide) ?_⟩
  exact fun hot => absurd hot.far (by decide)

end Tori.Timer
