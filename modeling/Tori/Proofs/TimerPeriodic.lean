import Tori.Proofs.TimerExact

/-! The `tick()` calls in which a periodic timer on level 0 runs. -/

namespace Tori.Timer

open Word Loop Buckets Function

variable {s s' s₁ : State ℕ} {m m' : Machine} {c : Creation} {b d : Bucket} {l : Bucket → List ℕ}
  {fuel lapicId i e f p k n q N D : ℕ}

/-- The periodic timer `i` waits in the list `b`, and ran `k` times in this call. -/
structure Rides (s : State ℕ) (i e p : ℕ) (b : Bucket) (k : ℕ) : Prop where
  mem : e ∈ s.lists b
  period : (s.pool e).periodTicks = p
  callback : (s.pool e).callback = some i
  count : s.calls.count i = k

theorem Rides.same (h : Rides s i e p b k) (hs : SameEntries s s') : Rides s' i e p b k := by
  obtain ⟨hlists, hpool, hcalls⟩ := hs
  exact ⟨hlists ▸ h.mem, hpool ▸ h.period, hpool ▸ h.callback, hcalls ▸ h.count⟩

theorem Rides.moved (h : Rides s i e p b k) (htags : Tags N s) (hm : Moved d f s s') (hne : f ≠ e) :
    Rides s' i e p b k := by
  obtain ⟨-, _, hmem⟩ := hm.lists htags.apart
  have hpool := hm.pool hne.symm
  refine ⟨(hmem e b).mpr (.inl ⟨h.mem, hne.symm⟩), hpool ▸ h.period, hpool ▸ h.callback, ?_⟩
  rw [hm.count fun hf => hne (htags.unique f e i hf h.callback), h.count]

theorem Rides.moved_other (h : Rides s i e p b k) (htags : Tags N s) (hm : Moved d f s s') (hne : d ≠ b) :
    Rides s' i e p b k := by
  refine h.moved htags hm ?_
  rintro rfl
  exact hne (htags.apart.once d b f hm.front h.mem)

theorem Rides.drain_other {body : ℕ → State ℕ → Option (State ℕ)} (hbody : ∀ e s s', body e s = some s' → Handled e s s')
    (h : Rides s i e p b k) (htags : Tags N s) (hne : d ≠ b) (hdrain : drain (popFront d) body fuel s = some s') :
    Rides s' i e p b k :=
  (drain_rule hbody (P := fun s => Rides s i e p b k) (fun _ _ _ _ ht _ hs _ _ hm => hs.moved_other ht hm hne)
    htags h hdrain).2.2.1

/-! ### A run of the timer -/

theorem Rides.rearms (hs : Rides s i e p b k) (hpos : 0 < p) (hlt : p < 256) (htick : s.tickCount < 2 ^ 64)
    (h : fireEntry fuel e { s with lists := l } = some s') :
    Rides s' i e p (.level0 ((s.cursor + gap p s.tickCount) % 256)) (k + 1) := by
  obtain ⟨-, rfl, hcall, rfl⟩ := hs
  rw [fireEntry_short (s := { s with lists := l }) fuel hcall hpos hlt htick] at h
  split_ifs at h
  obtain rfl := Option.some.inj h
  refine ⟨mem_push.mpr (.inr ⟨rfl, rfl⟩), ?_, ?_, ?_⟩
  · simp [insertLevel0, pushBack, State.setEntry]
  · simp [insertLevel0, pushBack, State.setEntry, hcall]
  · simp [insertLevel0, pushBack, State.setEntry]

/-- The bucket of the timer is emptied: it runs once, and goes to another bucket. -/
theorem Rides.fires (h : Rides s i e p (.level0 (n % 256)) 0) (htags : Tags N s) (hcursor : s.cursor = n % 256)
    (htick : s.tickCount = u64 (n + 1)) (hpos : 0 < p) (hlt : p < 256)
    (hdrain : drain (popFront (.level0 (n % 256))) (fireEntry fuel) fuel s = some s') :
    Rides s' i e p (.level0 ((n + gap p (u64 (n + 1))) % 256)) 1 := by
  have hne : Bucket.level0 (n % 256) ≠ .level0 ((n + gap p (u64 (n + 1))) % 256) := by
    have := gap_bounds hpos hlt (u64 (n + 1))
    simp only [ne_eq, Bucket.level0.injEq]
    omega
  have hloop := drain_rule (P := fun s => Rides s i e p (.level0 (n % 256)) 0 ∨
    Rides s i e p (.level0 ((n + gap p (u64 (n + 1))) % 256)) 1) (fun _ _ _ => fireEntry_handled) ?_ htags (.inl h) hdrain
  · obtain ⟨-, -, hs' | hs', hempty⟩ := hloop
    · exact absurd hs'.mem (by simp [hempty])
    · exact hs'
  intro f s₁ s₂ s₃ htags₁ hregs hs₁ hpop hrun hm
  rcases hs₁ with hs₁ | hs₁
  · by_cases hf : f = e
    · subst hf
      obtain ⟨rest, -, rfl⟩ := popFront_spec hpop
      simp only [State.regs, Prod.mk.injEq] at hregs
      have htick₁ : s₁.tickCount = u64 (n + 1) := hregs.2.2.1.trans htick
      have hnext := hs₁.rearms hpos hlt (by rw [htick₁]; exact u64_lt _) hrun
      rw [htick₁, show (s₁.cursor + gap p (u64 (n + 1))) % 256 = (n + gap p (u64 (n + 1))) % 256 by omega] at hnext
      exact .inr hnext
    · exact .inl (hs₁.moved htags₁ hm hf)
  · exact .inr (hs₁.moved_other htags₁ hm hne)

/-! ### The calls -/

/-- Timer `i` ran as `Creation.fires` says, and runs next when the slot `q % 256` is emptied. -/
def Beats (m : Machine) (i : ℕ) (c : Creation) : Prop :=
  ∃ e k q, firings m i = (List.range k).map (fun j => some (c.fires j)) ∧ c.fires k = q + 1 ∧ m.ticks ≤ q ∧
    q < m.ticks + 256 ∧ Rides m.called i e c.period (.level0 (q % 256)) 0

theorem Beats.tick (h : Beats m i c) (hb : Basic lapicId m) (hpos : 0 < c.period) (hlt : c.period < 256)
    (htick : Timer.tick fuel m.state.bspLapicId m.called = some s') :
    Beats ⟨s', m.ticks + 1, m.created, m.fired ++ s'.calls.map fun i => (i, some (m.ticks + 1))⟩ i c := by
  obtain ⟨e, k, q, hfirings, hk, hle, hnear, hrides⟩ := h
  obtain ⟨s₁, hdrain, hrest, -⟩ := tick_phases hb htick
  obtain ⟨hcursor, -, hnow, -⟩ := State.regs_eq hb.ticked_regs
  replace hrides : Rides m.ticked i e c.period (.level0 (q % 256)) 0 := hrides.same ⟨rfl, rfl, rfl⟩
  -- the second loop is about level 1
  have hsecond : ∀ {slot k : ℕ}, Rides s₁ i e c.period (.level0 slot) k → Rides s' i e c.period (.level0 slot) k := by
    intro slot k h₁
    rcases hrest with ⟨-, hsame⟩ | ⟨-, s₂, s₃, hsame₂, htags₂, -, hcascade, hsame⟩
    · exact h₁.same hsame
    · exact ((h₁.same hsame₂).drain_other (fun _ _ _ => cascadeEntry_handled) htags₂ (by simp) hcascade).same hsame
  rcases hle.eq_or_lt with rfl | hlater
  · have hs' := hsecond (hrides.fires hb.ticked_tags hcursor hnow hpos hlt hdrain)
    have hgap := gap_bounds hpos hlt (u64 (m.ticks + 1))
    refine ⟨e, k + 1, m.ticks + gap c.period (u64 (m.ticks + 1)), ?_, ?_, ?_, ?_, hs'.mem, hs'.period, hs'.callback, rfl⟩
    · rw [firings_append, hfirings, hs'.count, List.range_succ, List.map_append, List.map_singleton, hk]
      rfl
    · rw [Creation.fires, hk]
      omega
    · dsimp only
      omega
    · dsimp only
      omega
  · have hother : Bucket.level0 (m.ticks % 256) ≠ .level0 (q % 256) := by
      simp only [ne_eq, Bucket.level0.injEq]
      omega
    have hs' := hsecond (hrides.drain_other (fun _ _ _ => fireEntry_handled) hb.ticked_tags hother hdrain)
    refine ⟨e, k, q, ?_, hk, hlater, Nat.lt_succ_of_lt hnear, hs'.mem, hs'.period, hs'.callback, rfl⟩
    rw [firings_append, hfirings, hs'.count]
    exact List.append_nil _

theorem Beats.create {created : List Creation} (h : Beats m i c) (htags : Tags N m.called)
    (hcreate : Timer.create fuel D p (some N) m.called = some (some e, s')) :
    Beats ⟨s', m.ticks, created, m.fired ++ s'.calls.map fun i => (i, none)⟩ i c := by
  obtain ⟨x, k, q, hfirings, hk, hle, hnear, hrides⟩ := h
  obtain ⟨t, -, htags', hm⟩ := create_moved htags hcreate
  have hne : x ≠ e := by
    rintro rfl
    cases htags.apart.once _ _ x hm.front hrides.mem
  have hpool : (m.called.setEntry e t).pool x = m.called.pool x := update_of_ne hne _ _
  have hset : Rides (m.called.setEntry e t) i x c.period (.level0 (q % 256)) 0 :=
    ⟨hrides.mem, hpool ▸ hrides.period, hpool ▸ hrides.callback, hrides.count⟩
  have hs' := hset.moved htags' hm hne.symm
  refine ⟨x, k, q, ?_, hk, hle, hnear, hs'.mem, hs'.period, hs'.callback, rfl⟩
  rw [firings_append, hfirings, hs'.count]
  exact List.append_nil _

theorem create_rides (h : create fuel c.deadline c.period (some N) s = some (some e, s'))
    (hnear : c.deadline < c.time + 256) (hcursor : s.cursor = c.born % 256) (htick : s.tickCount = c.time)
    (hcalls : s.calls = []) :
    Rides s' N e c.period (.level0 ((c.born + max (c.deadline - c.time) 1) % 256)) 0 := by
  obtain ⟨s₁, rest, harm, -, -, ⟨hcursor₁, -, hcalls₁⟩, rfl⟩ := create_near h htick (by omega)
  rw [place, if_pos (by omega), show (c.born + max (c.deadline - c.time) 1) % 256 =
    (s₁.cursor + max (c.deadline - c.time) 1) % 256 by omega]
  refine ⟨mem_push.mpr (.inr ⟨rfl, rfl⟩), ?_, ?_, ?_⟩
  · simp [insertLevel0, pushBack, State.setEntry, harm.period]
  · simp [insertLevel0, pushBack, State.setEntry, harm.callback]
  · simp [insertLevel0, pushBack, State.setEntry, hcalls₁, hcalls]

/-! ### Runs -/

theorem Run.fired_le {g : ℕ → ℕ} {j : ℕ} (h : Run lapicId m) (hf : firings m i = (List.range k).map fun j => some (g j))
    (hj : j < k) : g j ≤ m.ticks := by
  have hmem : some (g j) ∈ firings m i := by
    rw [hf]
    exact List.mem_map.mpr ⟨j, List.mem_range.mpr hj, rfl⟩
  obtain ⟨x, hx, hsome⟩ := List.mem_map.mp hmem
  exact (h.basic.fired x (List.mem_of_mem_filter hx)).2 _ hsome

theorem Run.beats (h : Run lapicId m) (htame : ∀ c ∈ m.created, c.Tame) :
    ∀ i c, m.created[i]? = some c → 0 < c.period → Beats m i c := by
  induction h with
  | start =>
    intro i c hi
    cases hi
  | @step m m' hrun hstep ih =>
    intro i c hi hpos
    have hb := hrun.basic
    rcases step_cases hb hstep with ⟨fuel, e, s', d, hborn, -, hcreate, rfl⟩ | rfl | ⟨fuel, s', htick, rfl⟩
    · rcases Nat.lt_trichotomy i m.created.length with hlen | rfl | hlen
      · rw [List.getElem?_append_left hlen] at hi
        exact (ih (fun c hc => htame c (List.mem_append_left _ hc)) i c hi hpos).create hb.called_tags hcreate
      · obtain rfl : d = c := by simpa using hi
        obtain ⟨hcursor, -, hnow, -⟩ := State.regs_eq hb.regs
        have hnear := (htame d (by simp)).placed.resolve_right fun hfar => hpos.ne' hfar.1.oneshot
        rw [← hborn] at hcursor hnow
        have hs' := create_rides hcreate hnear hcursor hnow rfl
        refine ⟨e, 0, d.born + max (d.deadline - d.time) 1, ?_, rfl, ?_, ?_, hs'.mem, hs'.period, hs'.callback, rfl⟩
        · rw [firings_append, firings_nil hb le_rfl, hs'.count]
          rfl
        · dsimp only
          omega
        · dsimp only
          omega
      · have := (List.getElem?_eq_some_iff.mp hi).1
        simp only [List.length_append, List.length_singleton] at this
        omega
    · exact ih htame i c hi hpos
    · exact (ih htame i c hi hpos).tick hb hpos (htame c (List.mem_of_getElem? hi)).short htick

/-- In a run of tame timers, which can always take another `tick()`, a periodic timer has run in the calls `c.fires`, and
its next run is exactly `period` ticks after the last one unless the new deadline wraps around. -/
theorem periodic_exact_iff (hrun : Run lapicId m) (htame : ∀ c ∈ m.created, c.Tame) :
    (∃ m', Step m m' ∧ m'.ticks = m.ticks + 1 ∧ m'.created = m.created) ∧
    ∀ i c, m.created[i]? = some c → 0 < c.period →
      (∃ k, firings m i = (List.range k).map (fun j => some (c.fires j)) ∧ (∀ j < k, c.fires j ≤ m.ticks) ∧
        m.ticks < c.fires k) ∧
      ∀ j, c.fires (j + 1) = c.fires j + c.period ↔ c.period = 1 ∨ u64 (c.fires j) + c.period < 2 ^ 64 := by
  refine ⟨hrun.tick_next htame, fun i c hi hpos => ⟨?_, fun j => ?_⟩⟩
  · obtain ⟨e, k, q, hfirings, hk, hle, -⟩ := hrun.beats htame i c hi hpos
    exact ⟨k, hfirings, fun j hj => hrun.fired_le hfirings hj, by omega⟩
  · rw [Creation.fires, gap]
    split_ifs <;> omega

/-- A timer that runs every second tick. -/
theorem periodic_exact_even : ∃ m, Run 0 m ∧ m.ticks = 5 ∧ firings m 0 = [some 2, some 4] := by
  have htame : Creation.Tame ⟨0, 1, 2⟩ := ⟨by decide, .inl (by decide)⟩
  obtain ⟨m, hrun, hticks, hcreated⟩ := run_alone 0 1 2 htame (by decide) 5
  obtain ⟨-, hexact⟩ := periodic_exact_iff hrun (by rw [hcreated]; simpa using htame)
  obtain ⟨⟨k, hfirings, hpast, hnext⟩, -⟩ := hexact 0 ⟨0, 1, 2⟩ (by rw [hcreated]; rfl) (by decide)
  rw [hticks] at hpast hnext
  obtain rfl : k = 2 := by
    have h1 : ¬ 2 < k := fun hlt => absurd (hpast 2 hlt) (by decide)
    have h2 : k ≠ 0 := fun h => absurd (h ▸ hnext) (by decide)
    have h3 : k ≠ 1 := fun h => absurd (h ▸ hnext) (by decide)
    omega
  exact ⟨m, hrun, hticks, hfirings⟩

/-- When the tick count wraps around, the timer that runs every second tick runs in two ticks that follow each other. -/
theorem periodic_wraps : ∃ m l, Run 0 m ∧ m.created = [⟨0, 1, 2⟩] ∧
    firings m 0 = l ++ [some (2 ^ 64 - 1), some (2 ^ 64)] := by
  have htame : Creation.Tame ⟨0, 1, 2⟩ := ⟨by decide, .inl (by decide)⟩
  obtain ⟨m, hrun, hticks, hcreated⟩ := run_alone 0 1 2 htame (by decide) (2 ^ 64)
  obtain ⟨e, k, q, hfirings, hk, hle, -⟩ := hrun.beats (by rw [hcreated]; simpa using htame) 0 ⟨0, 1, 2⟩
    (by rw [hcreated]; rfl) (by decide)
  have hpast : ∀ j < k, Creation.fires ⟨0, 1, 2⟩ j ≤ 2 ^ 64 := fun j hj => hticks ▸ hrun.fired_le hfirings hj
  rcases k with _ | _ | k
  · have : q + 1 = 2 := hk.symm
    omega
  · have : q + 1 = 4 := hk.symm
    omega
  have h1 := hpast (k + 1) (by omega)
  rw [Creation.fires, Creation.fires] at hk
  rw [Creation.fires] at h1
  have hlast : Creation.fires ⟨0, 1, 2⟩ k = 2 ^ 64 - 1 := by
    dsimp only at *
    unfold gap u64 at *
    split_ifs at * <;> omega
  have hnext : Creation.fires ⟨0, 1, 2⟩ (k + 1) = 2 ^ 64 := by
    rw [Creation.fires, hlast]
    rfl
  refine ⟨m, (List.range k).map fun j => some (Creation.fires ⟨0, 1, 2⟩ j), hrun, hcreated, ?_⟩
  rw [hfirings, List.range_succ, List.range_succ, List.map_append, List.map_append, List.append_assoc, List.map_singleton,
    List.map_singleton, hlast, hnext]
  rfl

end Tori.Timer
