import Tori.Spec.Cow

/-! User memory: `malloc` and `calloc` (`libc/src/stdlib/malloc.c`) over the `brk` wrapper (`libc/src/syscall/brk.c`) and
the kernel's `sys_brk` (`kernel/src/process/syscall.cpp`). Addresses and sizes are 64-bit values; `none` is a call that
does not return, because `map_page` panics or a store of `calloc` faults. -/

namespace Tori.UserHeap

open Vmm Pmm

/-- What `sys_brk` reads and writes of the calling process. -/
structure Proc where
  world : World
  pml4Phys : ℕ
  brk : ℕ
  brkBase : ℕ

/-- `static_cast<uint64_t>(static_cast<int>(-E_NO_MEM))` -/
def noMem : ℕ := 2 ^ 64 - 12

/-- `(a + 0xFFF) & ~0xFFFULL` -/
def pageEnd (a : ℕ) : ℕ := (a + 0xFFF) % 2 ^ 64 / 0x1000 * 0x1000

def heapFlags : Flags := ⟨true, true, true, false, false, false, false, true⟩

/-- The loop of `sys_brk` over `n` pages; the result is whether every page could be allocated. -/
def growHeap (pml4 : ℕ) : ℕ → ℕ → World → Option (Bool × World)
  | 0, _, w => some (true, w)
  | n + 1, page, w =>
    let (phys, pmm) := allocPage w.pmm
    if phys = invalidPhysicalAddress then some (false, { w with pmm := pmm })
    else
      (mapPage page phys heapFlags pml4 { w with pmm := pmm, mem := fillPage phys (fun _ => 0) w.mem }).bind
        (growHeap pml4 n (page + 0x1000))

def sysBrk (newBrk : ℕ) (s : Proc) : Option (ℕ × Proc) :=
  if newBrk = 0 then some (s.brk, s)
  else if newBrk < s.brkBase then some (s.brk, s)
  else
    let oldEnd := pageEnd s.brk
    let newEnd := pageEnd newBrk
    if newEnd > oldEnd then
      match growHeap s.pml4Phys ((newEnd - oldEnd) / 0x1000) oldEnd s.world with
      | none => none
      | some (false, w) => some (noMem, { s with world := w })
      | some (true, w) => some (newBrk, { s with world := w, brk := newBrk })
    else some (newBrk, { s with brk := newBrk })

/-- `(void*)-1` -/
def failed : ℕ := 2 ^ 64 - 1

def brk (addr : ℕ) (s : Proc) : Option (ℕ × Proc) :=
  (sysBrk addr s).map fun (ret, s) => if ret = failed then (failed, s) else (ret, s)

/-- `(size + 15) & ~15` -/
def align16 (size : ℕ) : ℕ := (size + 15) % 2 ^ 64 / 16 * 16

def malloc (size : ℕ) (s : Proc) : Option (ℕ × Proc) :=
  if size = 0 then some (0, s)
  else
    let size := align16 size
    (brk 0 s).bind fun (old, s) =>
      if old = failed then some (0, s)
      else
        let wanted := (old + size) % 2 ^ 64
        (brk wanted s).map fun (newBrk, s) =>
          if newBrk = failed then (0, s)
          else if newBrk < wanted then (0, s)
          else (old, s)

/-- The stores of `calloc`, from byte `i` on. -/
def zeroBytes (pml4 p : ℕ) : ℕ → ℕ → World → Option World
  | 0, _, w => some w
  | n + 1, i, w => (userWrite pml4 ((p + i) % 2 ^ 64) 0 w).bind (zeroBytes pml4 p n (i + 1))

def calloc (nmemb size : ℕ) (s : Proc) : Option (ℕ × Proc) :=
  let total := nmemb * size % 2 ^ 64
  (malloc total s).bind fun (p, s) =>
    if p = 0 then some (p, s)
    else (zeroBytes s.pml4Phys p total 0 s.world).map fun w => (p, { s with world := w })

/-! ### Calls and their results -/

inductive HeapCall
  | malloc (size : ℕ)
  | calloc (nmemb size : ℕ)

/-- The bytes the caller asked for. -/
def HeapCall.requested : HeapCall → ℕ
  | .malloc size => size
  | .calloc nmemb size => nmemb * size

/-- The arguments are values of type `size_t`. -/
def HeapCall.Valid : HeapCall → Prop
  | .malloc size => size < 2 ^ 64
  | .calloc nmemb size => nmemb < 2 ^ 64 ∧ size < 2 ^ 64

def HeapCall.exec : HeapCall → Proc → Option (ℕ × Proc)
  | .malloc size => UserHeap.malloc size
  | .calloc nmemb size => UserHeap.calloc nmemb size

/-- A process with the results that were not null, each with the bytes asked for. -/
structure Heap where
  proc : Proc
  results : List (ℕ × ℕ)

def record (p n : ℕ) (results : List (ℕ × ℕ)) : List (ℕ × ℕ) := if p = 0 then results else (p, n) :: results

/-- The results are aligned ranges of mapped bytes that do not wrap and do not overlap. -/
structure HeapSafe (s : Heap) : Prop where
  aligned : ∀ r ∈ s.results, r.1 % 16 = 0
  bounded : ∀ r ∈ s.results, r.1 + r.2 ≤ 2 ^ 64
  mapped : ∀ r ∈ s.results, ∀ x, r.1 ≤ x → x < r.1 + r.2 → (walk s.proc.world.mem s.proc.pml4Phys x).isSome = true
  disjoint : s.results.Pairwise fun a b => a.1 + a.2 ≤ b.1 ∨ b.1 + b.2 ≤ a.1

/-! ### Calls that are served as they should be -/

/-- The break after a call for `n` bytes. -/
def newBreak (s : Proc) (n : ℕ) : ℕ := s.brk + (n + 15) / 16 * 16

/-- The new break is in the user half, the pages up to it are unmapped, and the kernel has the memory for them. -/
structure Fits (s : Proc) (n : ℕ) : Prop where
  user : newBreak s n ≤ userLimit + 1
  unmapped : ∀ va, pageEnd s.brk ≤ va → va < pageEnd (newBreak s n) → walk s.world.mem s.pml4Phys va = none
  memory : ∀ ret s', sysBrk (newBreak s n) s = some (ret, s') → ret ≠ noMem

end Tori.UserHeap
