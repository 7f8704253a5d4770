import Tori.Spec.Cow
import Tori.Spec.PageTables

/-! Stores of a system call into the memory of its caller: the processor's supervisor write
with CR0.WP as a parameter, the exception handler behind it, and the bytes `sys_read` and
`sys_waitpid` hand out. -/

namespace Tori.Vmm

/-- `handle_exception` while the current task's process has the address space `pml4`;
`none` is the panic at its end. -/
def handleException (vector cr2 errorCode pml4 : ℕ) (w : World) : Option World :=
  if vector = 14 then
    match handleCowFault cr2 errorCode pml4 w with
    | (true, w) => some w
    | (false, _) => none
  else none

/-- A store the page tables permit to the supervisor. Without `wp` it ignores the writable bit. -/
def tryStore (wp : Bool) (pml4 va : ℕ) (b : BitVec 8) (w : World) : Option World :=
  match walk w.mem pml4 va with
  | none => none
  | some t => if t.writable || !wp then some { w with mem := w.mem.store8 t.phys b } else none

/-- A supervisor byte store. One that is not permitted faults, with error code 3 on a present page
and 2 on a missing one, and is retried when the handler returns. -/
def kernelStore (wp : Bool) (pml4 va : ℕ) (b : BitVec 8) (w : World) : Option World :=
  match tryStore wp pml4 va b w with
  | some w => some w
  | none =>
    let errorCode := if (walk w.mem pml4 va).isSome then 3 else 2
    match handleException 14 va errorCode pml4 w with
    | some w => tryStore wp pml4 va b w
    | none => none

/-- The stores of `sys_read` into its buffer and of `sys_waitpid` into its status word. -/
def copyOut (wp : Bool) (pml4 : ℕ) : ℕ → List (BitVec 8) → World → Option World
  | _, [], w => some w
  | va, b :: bs, w =>
    match kernelStore wp pml4 va b w with
    | some w => copyOut wp pml4 (va + 1) bs w
    | none => none

/-- The bytes are in the memory of `p`, and no other live space reads a different byte anywhere. -/
structure StoredPrivately (s : Sys) (p va : ℕ) (bytes : List (BitVec 8)) (w' : World) : Prop where
  own : ∀ i, (h : i < bytes.length) → readByte w'.mem p (va + i) = some bytes[i]
  others : ∀ p' ∈ s.live, p' ≠ p → ∀ va' ≤ userLimit,
    readByte w'.mem p' va' = readByte s.world.mem p' va'

/-- Some other live space maps the frame of entry `e`. -/
def SharedFrame (s : Sys) (p : ℕ) (e : Entry) : Prop :=
  ∃ p' ∈ s.live, p' ≠ p ∧ ∃ va' ≤ userLimit, ∃ t, walk s.world.mem p' va' = some t ∧
    t.phys / 4096 = addrOf e / 4096

end Tori.Vmm
