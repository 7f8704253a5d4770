import Tori.Lib.Threads

/-! The model of `sync/seqlock.hpp`, one atomic operation a step. `seq_` is not reduced: the results below are about
counters that do not wrap. -/

namespace Tori.Seqlock

open Threads

variable {D : Type}

/-- The counter and the data it protects. -/
structure Shared (D : Type) where
  seq : ℕ
  data : D

/-- Where a thread is. -/
inductive Loc
  /-- Outside the lock's functions. -/
  | idle
  /-- In the loop of `read_begin`, before its load. -/
  | readBegin
  /-- `read_begin` has returned `s`. -/
  | reading (s : ℕ)
  /-- `read_retry` has returned. -/
  | retried (again : Bool)
  /-- In `write_begin`, before its load. -/
  | writeBegin
  /-- In `write_begin`, before a compare-exchange that expects `s`. -/
  | exchange (s : ℕ)
  /-- `write_begin` has returned. -/
  | writing
  /-- In `write_end`, between the load of `seq_` and the store. -/
  | writeEnd (s : ℕ)
  deriving DecidableEq

inductive Act (D : Type)
  /-- Call `read_begin`, `write_begin`. -/
  | read
  | write
  /-- The atomic loads and the compare-exchange of `read_begin` and `write_begin`. -/
  | load
  | compareExchange
  /-- A load and a store of the protected data. -/
  | loadData
  | storeData (f : D → D)
  /-- The load of `read_retry`; the load and the store of `write_end`. -/
  | readRetry
  | loadSeq
  | storeSeq

def step : Act D → Loc → Shared D → Option (Loc × Shared D)
  | .read, .idle, g | .read, .retried _, g => some (.readBegin, g)
  | .write, .idle, g | .write, .retried _, g => some (.writeBegin, g)
  | .load, .readBegin, g => some (if g.seq % 2 = 0 then .reading g.seq else .readBegin, g)
  | .loadData, .reading s, g => some (.reading s, g)
  | .readRetry, .reading s, g => some (.retried (g.seq != s), g)
  | .load, .writeBegin, g => some (.exchange g.seq, g)
  -- a failed exchange leaves the value it found in `s`
  | .compareExchange, .exchange s, g =>
    if g.seq = s then some (.writing, { g with seq := s + 1 }) else some (.exchange g.seq, g)
  | .storeData f, .writing, g => some (.writing, { g with data := f g.data })
  | .loadSeq, .writing, g => some (.writeEnd g.seq, g)
  | .storeSeq, .writeEnd s, g => some (.idle, { g with seq := s + 1 })
  | _, _, _ => none

/-- Between `write_begin` and `write_end`. -/
def Loc.Inside : Loc → Prop
  | .writing | .writeEnd _ => True
  | _ => False

instance : DecidablePred Loc.Inside := fun l => by
  cases l <;> unfold Loc.Inside <;> infer_instance

def start (ι : Type) (data : D) : Config ι Loc (Shared D) := ⟨fun _ => .idle, ⟨0, data⟩⟩

/-- A compare-exchange that succeeds finds no writer inside. The lock does not see to this. -/
def Serial {ι : Type} (c : Config ι Loc (Shared D)) (t : ι) : Act D → Prop
  | .compareExchange => c.loc t = .exchange c.shared.seq → ∀ w, ¬(c.loc w).Inside
  | _ => True

end Tori.Seqlock
