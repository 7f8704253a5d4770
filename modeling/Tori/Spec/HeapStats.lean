import Tori.Spec.HeapRun

/-! `heap::stats`, which walks the blocks of each region from its base, and the runs it is asked about: requests for a
multiple of 8 bytes with any alignment, and regions at any pages, also next to each other. -/

namespace Tori.Heap

open Word Linked

variable {σ : Type}

structure Stats where
  totalBytes : ℕ
  freeBytes : ℕ
  usedBytes : ℕ
  freeBlocks : ℕ
  backingPages : ℕ
  failedAllocations : ℕ

def Stats.countBlock (m : Mem) (hdr : ℕ) (st : Stats) : Stats :=
  let bsize := blockSize m hdr
  let st := { st with totalBytes := u64 (st.totalBytes + bsize) }
  if blockAllocated m hdr then { st with usedBytes := u64 (st.usedBytes + bsize) }
  else { st with freeBytes := u64 (st.freeBytes + bsize), freeBlocks := inc st.freeBlocks }

/-- The loop over the blocks of a region, of at most `fuel` rounds. -/
def countRegion (m : Mem) (limit : ℕ) : ℕ → ℕ → Stats → Option Stats
  | 0, _, _ => none
  | fuel + 1, current, st =>
    if current < limit then
      if blockSize m current = 0 then some st
      else countRegion m limit fuel (nextBlock m current) (st.countBlock m current)
    else some st

def stats (fuel : ℕ) (s : State σ) : Option Stats :=
  s.regions.foldlM (fun st r => countRegion s.mem r.limit fuel r.base st)
    ⟨0, 0, 0, 0, s.backingPages, s.failedAllocations⟩

/-- The numbers agree with the pages, the live allocations and the free list. -/
structure Exact (s : State σ) (live : Live) (st : Stats) : Prop where
  backing : st.backingPages = s.backingPages
  total : st.totalBytes = Pmm.pageSize * st.backingPages
  sum : st.usedBytes + st.freeBytes = st.totalBytes
  used : ∃ ps : List ℕ, ps.Nodup ∧ (∀ p, p ∈ ps ↔ live p ≠ none) ∧
    st.usedBytes = (ps.map fun p => blockSize s.mem (headerFromUserPtr s.mem p)).sum
  free : ∃ nodes, IsList s.list nodes ∧ st.freeBlocks = nodes.length

inductive Call
  | alloc (size alignment : ℕ)
  | free (pointer : ℕ)

inductive CallStep (allowed : State (List ℕ) → Call → Prop) : State (List ℕ) → Live → State (List ℕ) → Live → Prop
  | alloc {s s' : State (List ℕ)} {live : Live} {size alignment p : ℕ} {answers : List ℕ} (hsize : size % 8 = 0)
      (hlt : size < 2 ^ 64) (halt : alignment < 2 ^ 64) (hsupplied : Supplied s.regions answers)
      (hallowed : allowed { s with env := answers } (.alloc size alignment))
      (h : alloc answering size alignment { s with env := answers } = some (p, s')) :
      CallStep allowed s live s' (if p = 0 then live else Function.update live p (some (size, alignment)))
  | free {s s' : State (List ℕ)} {live : Live} {p : ℕ} (hlive : live p ≠ none) (hallowed : allowed s (.free p))
      (h : free p s = some s') : CallStep allowed s live s' (Function.update live p none)
  | store {s : State (List ℕ)} {live : Live} (x : ℕ) (v : BitVec 8)
      (hx : (∃ p size alignment, live p = some (size, alignment) ∧ p ≤ x ∧ x < p + size) ∨
        ∀ r ∈ s.regions, ¬ r.Has x) :
      CallStep allowed s live (s.withMem fun m => m.store8 x v) live

inductive CallRun (allowed : State (List ℕ) → Call → Prop) : State (List ℕ) → Live → Prop
  | init (mem : Mem) : CallRun allowed (init mem []) fun _ => none
  | step {s s' : State (List ℕ)} {live live' : Live} (hrun : CallRun allowed s live)
      (hstep : CallStep allowed s live s' live') : CallRun allowed s' live'

/-- `free` does not merge over the end of a region: if the block ends there, no free block of another region follows. -/
def StaysInRegion (p : ℕ) (s : State σ) : Prop :=
  ∀ r, regionOf s (headerFromUserPtr s.mem p) = some r → nextBlock s.mem (headerFromUserPtr s.mem p) = r.limit →
    (regionOf s r.limit).isSome = true → blockAllocated s.mem r.limit = true

def Regular (s : State (List ℕ)) : Call → Prop
  | .alloc size alignment => size ≠ 0 → HoldsRequest answering size alignment s
  | .free p => StaysInRegion p s

end Tori.Heap
