import Tori.Lib.Buckets
import Tori.Lib.Loop
import Tori.Lib.Word

/-! The timer wheel (`kernel/src/kernel/timer.cpp`). Entries are indices into the pool and the intrusive lists are lists
of indices. A callback is an element of `α`, standing for the function with its `user_data`; `calls` are the callbacks
that have run. `none` is a call that does not return: the step bound is used up, a null callback is called, or
`timer_lock` is taken by the call that holds it. -/

namespace Tori.Timer

open Word Loop Buckets

def bucketCount : ℕ := 256
def maxEntries : ℕ := 64

/-- `free_entries` and the buckets of the two levels. -/
inductive Bucket where
  | free
  | level0 (slot : ℕ)
  | level1 (slot : ℕ)
  deriving DecidableEq

structure TimerEntry (α : Type) where
  deadlineTicks : ℕ
  periodTicks : ℕ
  callback : Option α
  wheelLevel : ℕ
  wheelSlot : ℕ

structure State (α : Type) where
  lists : Bucket → List ℕ
  pool : ℕ → TimerEntry α
  cursor : ℕ
  l1Cursor : ℕ
  tickCount : ℕ
  initialized : Bool
  bspLapicId : ℕ
  locked : Bool
  calls : List α

variable {α : Type}

def State.setEntry (s : State α) (e : ℕ) (t : TimerEntry α) : State α :=
  { s with pool := Function.update s.pool e t }

def pushBack (b : Bucket) (e : ℕ) (s : State α) : State α := { s with lists := push s.lists b e }

def popFront (b : Bucket) (s : State α) : Option (ℕ × State α) :=
  match s.lists b with
  | [] => none
  | e :: rest => some (e, { s with lists := Function.update s.lists b rest })

/-- A block under `IrqLockGuard guard(timer_lock)`. -/
def withLock (f : State α → Option (State α)) (s : State α) : Option (State α) :=
  if s.locked then none
  else (f { s with locked := true }).map fun s => { s with locked := false }

/-- The inner option is the returned pointer. -/
def allocEntry (s : State α) : Option (Option ℕ × State α) :=
  if s.locked then none
  else
    match popFront .free s with
    | none => some (none, s)
    | some (e, s) => some (some e, s)

def freeEntry (e : ℕ) (s : State α) : Option (State α) :=
  let t := s.pool e
  let s := s.setEntry e ⟨0, 0, none, t.wheelLevel, t.wheelSlot⟩
  withLock (fun s => some (pushBack .free e s)) s

def insertLevel0 (e remaining : ℕ) (s : State α) : State α :=
  let slot := (s.cursor + remaining) % bucketCount
  pushBack (.level0 slot) e (s.setEntry e { s.pool e with wheelLevel := 0, wheelSlot := slot })

/-- The slot of `insert_level1`; the subtraction wraps. -/
def level1Slot (remaining : ℕ) : ℕ :=
  let slot := sub (remaining / bucketCount) 1
  if slot ≥ bucketCount then bucketCount - 1 else slot

def insertLevel1 (e remaining : ℕ) (s : State α) : State α :=
  let slot := level1Slot remaining
  pushBack (.level1 slot) e (s.setEntry e { s.pool e with wheelLevel := 1, wheelSlot := slot })

def runCallback (e : ℕ) (s : State α) : Option (State α) :=
  match (s.pool e).callback with
  | none => none
  | some a => some { s with calls := s.calls ++ [a] }

/-- Ticks until the deadline of the entry, or 0. -/
def remainingTicks (e : ℕ) (s : State α) : ℕ :=
  if (s.pool e).deadlineTicks > s.tickCount then (s.pool e).deadlineTicks - s.tickCount else 0

/-- What follows a callback in `insert_entry` and in `fire_entry`, the insertion being `insert`. -/
def rearmOrFree (insert : ℕ → State α → Option (State α)) (e : ℕ) (s : State α) : Option (State α) :=
  if (s.pool e).periodTicks > 0 then
    insert e (s.setEntry e { s.pool e with deadlineTicks := u64 (s.tickCount + (s.pool e).periodTicks) })
  else freeEntry e s

def insertEntry : ℕ → ℕ → State α → Option (State α)
  | 0, _, _ => none
  | fuel + 1, e, s =>
    let delta := remainingTicks e s
    if delta < bucketCount then some (insertLevel0 e (if delta = 0 then 1 else delta) s)
    else if delta < bucketCount * bucketCount then some (insertLevel1 e delta s)
    else
      match runCallback e s with
      | none => none
      | some s => rearmOrFree (insertEntry fuel) e s

def fireEntry (fuel e : ℕ) (s : State α) : Option (State α) :=
  match runCallback e s with
  | none => none
  | some s => rearmOrFree (insertEntry fuel) e s

/-- The body of the loop of `cascade`. -/
def cascadeEntry (fuel e : ℕ) (s : State α) : Option (State α) :=
  let remaining := remainingTicks e s
  if remaining = 0 then fireEntry fuel e s
  else if remaining < bucketCount then some (insertLevel0 e remaining s)
  else some (insertLevel1 e remaining s)

def cascade (fuel : ℕ) (s : State α) : Option (State α) :=
  (drain (popFront (.level1 s.l1Cursor)) (cascadeEntry fuel) fuel s).map fun s =>
    { s with l1Cursor := (s.l1Cursor + 1) % bucketCount }

def tick (fuel lapicId : ℕ) (s : State α) : Option (State α) :=
  if !s.initialized then some s
  else if lapicId ≠ s.bspLapicId then some s
  else
    match drain (popFront (.level0 s.cursor)) (fireEntry fuel) fuel { s with tickCount := inc s.tickCount } with
    | none => none
    | some s =>
      if s.cursor + 1 = bucketCount then cascade fuel { s with cursor := 0 }
      else some { s with cursor := s.cursor + 1 }

/-- The part of `create_oneshot` and `create_periodic` after their checks. -/
def create (fuel deadline period : ℕ) (callback : Option α) (s : State α) : Option (Option ℕ × State α) :=
  match allocEntry s with
  | none => none
  | some (none, s) => some (none, s)
  | some (some e, s) =>
    let s := s.setEntry e { s.pool e with deadlineTicks := deadline, periodTicks := period, callback := callback }
    (withLock (insertEntry fuel e) s).map fun s => (some e, s)

def createOneshot (fuel deadlineTicks : ℕ) (callback : Option α) (s : State α) : Option (Option ℕ × State α) :=
  if !s.initialized || callback.isNone then some (none, s)
  else create fuel deadlineTicks 0 callback s

def createPeriodic (fuel startDelta periodTicks : ℕ) (callback : Option α) (s : State α) :
    Option (Option ℕ × State α) :=
  if !s.initialized || callback.isNone || periodTicks = 0 then some (none, s)
  else create fuel (u64 (s.tickCount + startDelta)) periodTicks callback s

/-- The zero-initialised globals. -/
def zeroed : State α := ⟨fun _ => [], fun _ => ⟨0, 0, none, 0, 0⟩, 0, 0, 0, false, 0, false, []⟩

def init (lapicId : ℕ) (s : State α) : State α :=
  { forUp (pushBack .free) maxEntries 0 { s with bspLapicId := lapicId } with initialized := true }

/-! ### Runs -/

/-- A timer that was created: `born` is the number of `tick()` calls before, `deadline` its first deadline, and `period`
is 0 for a one-shot timer. -/
structure Creation where
  born : ℕ
  deadline : ℕ
  period : ℕ

/-- The wheel with its history. Timer `i` is the one created as `i`-th, and `i` is its callback. `fired` says which timer
ran in which `tick()` call, or in none. -/
structure Machine where
  state : State ℕ
  ticks : ℕ
  created : List Creation
  fired : List (ℕ × Option ℕ)

def Machine.called (m : Machine) : State ℕ := { m.state with calls := [] }

/-- A call that returns. -/
inductive Step : Machine → Machine → Prop
  | oneshot {m : Machine} {s' : State ℕ} {fuel deadline e : ℕ} (hdeadline : deadline < 2 ^ 64)
      (h : createOneshot fuel deadline (some m.created.length) m.called = some (some e, s')) :
      Step m ⟨s', m.ticks, m.created ++ [⟨m.ticks, deadline, 0⟩], m.fired ++ s'.calls.map fun i => (i, none)⟩
  | periodic {m : Machine} {s' : State ℕ} {fuel startDelta period e : ℕ} (hdelta : startDelta < 2 ^ 64)
      (hperiod : period < 2 ^ 64)
      (h : createPeriodic fuel startDelta period (some m.created.length) m.called = some (some e, s')) :
      Step m ⟨s', m.ticks, m.created ++ [⟨m.ticks, u64 (m.state.tickCount + startDelta), period⟩],
        m.fired ++ s'.calls.map fun i => (i, none)⟩
  | refused {m : Machine} {s' : State ℕ} {fuel deadline period : ℕ} {callback : Option ℕ}
      (h : createOneshot fuel deadline callback m.called = some (none, s') ∨
        createPeriodic fuel deadline period callback m.called = some (none, s')) : Step m { m with state := s' }
  | tick {m : Machine} {s' : State ℕ} {fuel : ℕ} (h : tick fuel m.state.bspLapicId m.called = some s') :
      Step m ⟨s', m.ticks + 1, m.created, m.fired ++ s'.calls.map fun i => (i, some (m.ticks + 1))⟩

inductive Run (lapicId : ℕ) : Machine → Prop
  | start : Run lapicId ⟨init lapicId zeroed, 0, [], []⟩
  | step {m m' : Machine} (hrun : Run lapicId m) (hstep : Step m m') : Run lapicId m'

/-- The `tick()` calls in which timer `i` ran. -/
def firings (m : Machine) (i : ℕ) : List (Option ℕ) := (m.fired.filter fun f => f.1 = i).map Prod.snd

/-- The slots that a timer re-armed at the tick count `now` goes ahead: none is left to a deadline that wraps around. -/
def gap (period now : ℕ) : ℕ := if now + period < 2 ^ 64 then period else 1

namespace Creation

/-- `tick_count` when the timer was created. -/
def time (c : Creation) : ℕ := u64 c.born

/-- The `tick()` call that makes `tick_count` equal to the deadline. -/
def deadlineTick (c : Creation) : ℕ := c.born + (c.deadline - c.time)

/-- A one-shot timer within the reach of the wheel. -/
structure InReach (c : Creation) : Prop where
  oneshot : c.period = 0
  future : c.time < c.deadline
  near : c.deadline ≤ c.time + 65535

/-- The timer goes to level 1, and the bucket it goes to is cascaded at the deadline. -/
structure OnTime (c : Creation) : Prop where
  far : c.time + 256 ≤ c.deadline
  aligned : c.deadline % 256 = 0
  slot : c.time % 65536 = 0 ∨ 65280 < c.time % 65536

/-- The bucket is cascaded next within the 256 ticks in which the timer's slot does not change: `cascade` puts the timer
back into the bucket it is emptying. -/
structure Stuck (c : Creation) : Prop where
  slot : (c.time / 256 + 1) % 256 = (c.deadline - c.time) / 256
  early : 256 ≤ c.time % 256 + (c.deadline - c.time) % 256

/-- The timer stays on level 0, or it goes to level 1 and leaves it before the tick count wraps. -/
structure Safe (c : Creation) : Prop where
  short : c.period < 256
  near : c.deadline < c.time + 65536
  placed : c.time + 256 ≤ c.deadline → ¬ c.Stuck ∧ (c.OnTime ∨ c.deadline + 65536 < 2 ^ 64)

/-- The timer stays on level 0, or it is a one-shot timer that fires on time. -/
structure Tame (c : Creation) : Prop where
  short : c.period < 256
  placed : c.deadline < c.time + 256 ∨ c.InReach ∧ c.OnTime

/-- The `tick()` calls in which a periodic timer that stays on level 0 runs. -/
def fires (c : Creation) : ℕ → ℕ
  | 0 => c.born + max (c.deadline - c.time) 1 + 1
  | k + 1 => c.fires k + gap c.period (u64 (c.fires k))

end Creation

end Tori.Timer
