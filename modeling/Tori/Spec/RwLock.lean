import Tori.Lib.Threads

/-! The model of `sync/rwlock.hpp`, one atomic operation a step. `state_` is an `int`; sums are reduced to 32 bits. A thread
calls an unlock function only when it holds the lock that way. -/

namespace Tori.RwLock

open Threads

def int32 (x : ℤ) : ℤ := x.bmod (2 ^ 32)

/-- Where a thread is. -/
inductive Loc
  /-- Outside the lock's functions, holding nothing. -/
  | idle
  /-- In the loop of `lock_read`, before its load. -/
  | lockRead
  /-- In `lock_read`, before a compare-exchange that expects `s`. -/
  | exchangeRead (s : ℤ)
  /-- `lock_read` has returned. -/
  | reading
  /-- In the loop of `lock_write`, before its compare-exchange. -/
  | lockWrite
  /-- In `try_lock_write`, before its compare-exchange. -/
  | tryLockWrite
  /-- `lock_write` has returned, or `try_lock_write` has returned true. -/
  | writing
  deriving DecidableEq

inductive Act
  /-- Call `lock_read`, `lock_write`, `try_lock_write`. -/
  | read
  | write
  | tryWrite
  /-- The load of `lock_read` and the compare-exchanges. -/
  | load
  | compareExchange
  /-- The decrement of `unlock_read` and the store of `unlock_write`. -/
  | unlockRead
  | unlockWrite

def step : Act → Loc → ℤ → Option (Loc × ℤ)
  | .read, .idle, g => some (.lockRead, g)
  | .write, .idle, g => some (.lockWrite, g)
  | .tryWrite, .idle, g => some (.tryLockWrite, g)
  | .load, .lockRead, g => some (if 0 ≤ g then .exchangeRead g else .lockRead, g)
  -- after a failed exchange `lock_read` loads again
  | .compareExchange, .exchangeRead s, g => if g = s then some (.reading, int32 (s + 1)) else some (.lockRead, g)
  | .compareExchange, .lockWrite, g => if g = 0 then some (.writing, -1) else some (.lockWrite, g)
  | .compareExchange, .tryLockWrite, g => if g = 0 then some (.writing, -1) else some (.idle, g)
  | .unlockRead, .reading, g => some (.idle, int32 (g - 1))
  | .unlockWrite, .writing, _ => some (.idle, 0)
  | _, _, _ => none

def start (ι : Type) : Config ι Loc ℤ := ⟨fun _ => .idle, 0⟩

variable {ι : Type} [Fintype ι]

def readers (loc : ι → Loc) : ℕ := (Finset.univ.filter fun t => loc t = .reading).card

/-- What `state_` says, and who holds the lock. -/
structure Exclusive (c : Config ι Loc ℤ) : Prop where
  writer : (∃ w, c.loc w = .writing) → c.shared = -1
  readers : (∀ w, c.loc w ≠ .writing) → c.shared = readers c.loc
  one : ∀ w w', c.loc w = .writing → c.loc w' = .writing → w = w'
  apart : ∀ r w, c.loc r = .reading → c.loc w ≠ .writing

end Tori.RwLock
