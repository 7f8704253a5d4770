import Tori.Spec.UserHeap

/-! Sequences of `sys_brk` calls by one process, and calls that run out of memory. -/

namespace Tori.UserHeap

open Vmm Pmm

/-- `user_stack_base` -/
def userStackBase : ℕ := 0x7FFFF0000000

/-- The loop of `sys_brk` maps the page of `va`. -/
def Maps (newBrk : ℕ) (s : Proc) (va : ℕ) : Prop :=
  newBrk ≠ 0 ∧ s.brkBase ≤ newBrk ∧ pageEnd s.brk ≤ va ∧ va < pageEnd newBrk

/-- As `elf64_load` leaves a process: the break is where the image ends, and nothing is mapped from there to the stack. -/
structure Loaded (s : Proc) : Prop where
  brk : s.brk = s.brkBase
  aligned : s.brkBase % 0x1000 = 0
  lt : s.brkBase < 2 ^ 64
  free : ∀ va, s.brkBase ≤ va → va < userStackBase → walk s.world.mem s.pml4Phys va = none

/-- What a call that returns the break it was asked for owes the process. -/
structure BrkOk (newBrk : ℕ) (s s' : Proc) : Prop where
  mapped : ∀ va, s'.brkBase ≤ va → va < pageEnd s'.brk → (walk s'.world.mem s'.pml4Phys va).isSome = true
  range : ∀ va, Maps newBrk s va → s.brkBase ≤ va ∧ va < userStackBase
  fresh : ∀ va, Maps newBrk s va → walk s.world.mem s.pml4Phys va = none
  kept : ∀ va ≤ userLimit, (walk s.world.mem s.pml4Phys va).isSome = true →
    walk s'.world.mem s'.pml4Phys va = walk s.world.mem s.pml4Phys va ∧
      readByte s'.world.mem s'.pml4Phys va = readByte s.world.mem s.pml4Phys va

/-- If the call needs pages, they end below the stack, and the break has not been higher before, nor wrapped around. -/
def Extends (newBrk : ℕ) (s : Proc) : Prop :=
  newBrk ≠ 0 → s.brkBase ≤ newBrk → pageEnd s.brk < pageEnd newBrk →
    s.brkBase ≤ pageEnd s.brk ∧ newBrk ≤ userStackBase ∧ walk s.world.mem s.pml4Phys (pageEnd s.brk) = none

/-- The call allocates some of its pages, or none, and then there is none left. -/
def RunsOut (newBrk : ℕ) (s : Proc) : Prop :=
  newBrk ≠ 0 ∧ s.brkBase ≤ newBrk ∧ pageEnd s.brk < pageEnd newBrk ∧
    ∃ w, growHeap s.pml4Phys ((pageEnd newBrk - pageEnd s.brk) / 0x1000) (pageEnd s.brk) s.world = some (false, w)

/-- The break, the mappings and the pages in use are those before the call. -/
structure Undone (s s' : Proc) : Prop where
  brk : s'.brk = s.brk
  mappings : ∀ va, walk s'.world.mem s'.pml4Phys va = walk s.world.mem s.pml4Phys va
  pages : ∀ q, isPageUsed s'.world.pmm q = isPageUsed s.world.pmm q

end Tori.UserHeap
