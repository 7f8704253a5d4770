import Tori.Lib.Linked
import Tori.Lib.Word
import Tori.Spec.Pmm

/-! The kernel heap (`kernel/src/memory/heap.cpp`): blocks with boundary tags in a byte
memory, the address-ordered free list threaded through the payloads of the free blocks,
and the regions obtained from the page allocator. Addresses are `uint64_t` values. The
list walks are bounded by `listFuel` and the retry loop of `alloc` by `maxRegions + 1`;
`none` means that a bound was used up. -/

namespace Tori.Heap

open Word

def allocatedFlag : ℕ := 1
def sizeMask : ℕ := 2 ^ 64 - 1 - allocatedFlag
def minBlockSize : ℕ := 32
def growPageCount : ℕ := 16
def maxRegions : ℕ := 16
def regionSize : ℕ := growPageCount * Pmm.pageSize

structure HeapRegion where
  base : ℕ
  limit : ℕ
  deriving DecidableEq

def HeapRegion.Has (r : HeapRegion) (x : ℕ) : Prop := r.base ≤ x ∧ x < r.limit

instance (r : HeapRegion) (x : ℕ) : Decidable (r.Has x) := inferInstanceAs (Decidable (_ ∧ _))

/-- What the heap calls outside itself: `pmm::alloc_pages`, `pmm::free_pages` and
`address::physical_to_virtual`. -/
structure Backing (σ : Type) where
  allocPages : ℕ → σ → ℕ × σ
  freePages : ℕ → ℕ → σ → σ
  physicalToVirtual : ℕ → ℕ

structure State (σ : Type) where
  mem : Mem
  regions : List HeapRegion
  freeList : ℕ
  backingPages : ℕ
  failedAllocations : ℕ
  env : σ

variable {σ : Type}

def init (mem : Mem) (env : σ) : State σ := ⟨mem, [], 0, 0, 0, env⟩

def blockHeader (ptr : ℕ) : ℕ := sub ptr 8

def blockPayload (hdr : ℕ) : ℕ := u64 (hdr + 8)

def blockSize (m : Mem) (hdr : ℕ) : ℕ := m.load64 hdr &&& sizeMask

def blockAllocated (m : Mem) (hdr : ℕ) : Bool := m.load64 hdr &&& allocatedFlag != 0

def nextBlock (m : Mem) (hdr : ℕ) : ℕ := u64 (hdr + blockSize m hdr)

def blockFooter (m : Mem) (hdr : ℕ) : ℕ := sub (hdr + blockSize m hdr) 8

def setBlock (hdr size : ℕ) (allocated : Bool) (m : Mem) : Mem :=
  let m := m.store64 hdr (size ||| if allocated then allocatedFlag else 0)
  m.store64 (blockFooter m hdr) (m.load64 hdr)

def readShift (m : Mem) (ptr : ℕ) : ℕ := m.load64 (sub ptr 8)

def writeShift (ptr shift : ℕ) (m : Mem) : Mem := m.store64 (sub ptr 8) shift

def payloadFromUserPtr (m : Mem) (ptr : ℕ) : ℕ := sub ptr (readShift m ptr)

def headerFromUserPtr (m : Mem) (ptr : ℕ) : ℕ := blockHeader (payloadFromUserPtr m ptr)

/-- One more than the number of smallest blocks in `max_regions` regions. -/
def listFuel : ℕ := maxRegions * (regionSize / minBlockSize) + 1

def State.list (s : State σ) : Linked.Store := ⟨s.freeList, s.mem⟩

def State.withList (s : State σ) (l : Linked.Store) : State σ :=
  { s with freeList := l.head, mem := l.mem }

def State.withMem (s : State σ) (f : Mem → Mem) : State σ := { s with mem := f s.mem }

def removeFromFreeList (target : ℕ) (s : State σ) : Option (State σ) :=
  (Linked.remove listFuel target s.list).map s.withList

def addToFreeList (node : ℕ) (s : State σ) : Option (State σ) :=
  (Linked.insert listFuel node s.list).map s.withList

def regionIsEmpty (size : ℕ) : Bool := size < 8 + 8 + 8 + 1

def initRegionAsFreeBlock (base size : ℕ) (s : State σ) : Option (State σ) :=
  if regionIsEmpty size then some s
  else addToFreeList (blockPayload base) (s.withMem (setBlock base size false))

def tryAddRegion (base limit : ℕ) (s : State σ) : Option (State σ) :=
  if s.regions.length ≥ maxRegions then none
  else some { s with regions := s.regions ++ [⟨base, limit⟩] }

def growHeap (backing : Backing σ) (s : State σ) : Option (Bool × State σ) :=
  let (phys, env) := backing.allocPages growPageCount s.env
  let s := { s with env := env }
  if phys = Pmm.invalidPhysicalAddress then some (false, s)
  else
    let virt := backing.physicalToVirtual phys
    match tryAddRegion virt (u64 (virt + regionSize)) s with
    | none => some (false, { s with env := backing.freePages phys growPageCount env })
    | some s =>
      (initRegionAsFreeBlock virt regionSize
        { s with backingPages := u64 (s.backingPages + growPageCount) }).map fun s => (true, s)

/-- `user_ptr` in the block at `hdr`. -/
def userPtr (hdr alignment : ℕ) : ℕ := alignUp (u64 (blockPayload hdr + 8)) alignment

/-- `total_used` for the block at `hdr`, raised to `min_block_size`; the sum wraps. -/
def totalUsed (hdr size alignment : ℕ) : ℕ :=
  max (u64 (sub (userPtr hdr alignment) hdr + size + 8)) minBlockSize

def fits (m : Mem) (size alignment node : ℕ) : Bool :=
  totalUsed (blockHeader node) size alignment ≤ blockSize m (blockHeader node)

/-- The branch of `alloc` that takes the block of `node`. -/
def takeBlock (size alignment node : ℕ) (s : State σ) : Option (ℕ × State σ) := do
  let hdr := blockHeader node
  let bsize := blockSize s.mem hdr
  let total := totalUsed hdr size alignment
  let ptr := userPtr hdr alignment
  let s ← removeFromFreeList node s
  let remaining := bsize - total
  let s ←
    if remaining ≥ minBlockSize then
      let remainder := u64 (hdr + total)
      addToFreeList (blockPayload remainder)
        ((s.withMem (setBlock hdr total true)).withMem (setBlock remainder remaining false))
    else some (s.withMem (setBlock hdr bsize true))
  some (ptr, s.withMem (writeShift ptr (sub ptr (blockPayload hdr))))

/-- The search of `alloc`: the node it takes, growing the heap while none fits, or `none`
when the heap cannot grow. -/
def findBlock (backing : Backing σ) (size alignment : ℕ) :
    ℕ → State σ → Option (Option ℕ × State σ)
  | 0, _ => none
  | fuel + 1, s =>
    match Linked.seek s.list (fits s.mem size alignment) listFuel none with
    | none => none
    | some link =>
      let node := s.list.get link
      if node ≠ 0 then some (some node, s)
      else
        match growHeap backing s with
        | none => none
        | some (true, s) => findBlock backing size alignment fuel s
        | some (false, s) => some (none, s)

def atLeast8 (alignment : ℕ) : ℕ := if alignment < 8 then 8 else alignment

def alloc (backing : Backing σ) (size alignment : ℕ) (s : State σ) : Option (ℕ × State σ) :=
  if size = 0 then some (0, s)
  else
    match findBlock backing size (atLeast8 alignment) (maxRegions + 1) s with
    | none => none
    | some (none, s) => some (0, { s with failedAllocations := inc s.failedAllocations })
    | some (some node, s) => takeBlock size (atLeast8 alignment) node s

/-- The first region with the address, as the loops over `regions` find it. -/
def regionOf (s : State σ) (x : ℕ) : Option HeapRegion := s.regions.find? fun r => r.Has x

def contains (s : State σ) (pointer : ℕ) : Bool := pointer != 0 && (regionOf s pointer).isSome

def coalesceNext (hdr bsize : ℕ) (s : State σ) : Option (State σ) :=
  let next := nextBlock s.mem hdr
  if (regionOf s next).isSome && !blockAllocated s.mem next then do
    let s ← removeFromFreeList (blockPayload next) s
    some (s.withMem (setBlock hdr (u64 (bsize + blockSize s.mem next)) false))
  else some s

/-- Also gives the header of the block that is then free. -/
def coalescePrev (hdr : ℕ) (region : Option HeapRegion) (s : State σ) : Option (ℕ × State σ) :=
  match region with
  | none => some (hdr, s)
  | some r =>
    let prevSize := s.mem.load64 (sub hdr 8) &&& sizeMask
    let prev := sub hdr prevSize
    if hdr > u64 (r.base + 8) ∧ prevSize > 0 ∧ prev ≥ r.base ∧ !blockAllocated s.mem prev then do
      let s ← removeFromFreeList (blockPayload prev) s
      some (prev, s.withMem (setBlock prev (u64 (blockSize s.mem prev + blockSize s.mem hdr)) false))
    else some (hdr, s)

def free (pointer : ℕ) (s : State σ) : Option (State σ) :=
  if pointer = 0 then some s
  else if !contains s pointer then some s
  else
    let hdr := headerFromUserPtr s.mem pointer
    if !blockAllocated s.mem hdr then some s
    else do
      let bsize := blockSize s.mem hdr
      let region := regionOf s hdr
      let s ← coalesceNext hdr bsize (s.withMem (setBlock hdr bsize false))
      let (hdr, s) ← coalescePrev hdr region s
      addToFreeList (blockPayload hdr) s

end Tori.Heap
