import Tori.Lib.Loop
import Tori.Spec.Heap

/-! The slice allocator (`kernel/src/memory/slice_allocator.cpp`) and the dispatch between
slices, heap and whole pages (`kernel/src/memory/allocator.cpp`). All three share the memory
and the page allocator; `hhdmOffset` is the offset of the direct map. -/

namespace Tori.Kalloc

open Word Loop

structure SizeClass where
  size : ℕ
  alignment : ℕ
  freeList : ℕ
  totalSlices : ℕ
  freeSlices : ℕ
  backingPages : ℕ

structure SliceStats where
  backingPages : ℕ
  totalSlices : ℕ
  freeSlices : ℕ
  failedAllocations : ℕ

/-- The allocator's data beside the heap's own. `carved` is not in the source: it records the
pages `grow_class` has cut into slices, with the class. -/
structure Env where
  pmm : Pmm.State
  classes : Fin 8 → SizeClass
  stats : SliceStats
  carved : List (ℕ × Fin 8)

abbrev State : Type := Heap.State Env

def State.withEnv (s : State) (env : Env) : State := { s with env := env }

def classSize : Fin 8 → ℕ := ![16, 32, 64, 128, 256, 512, 1024, 2048]

/-- The table `classes[]` of the source. -/
def initialClasses (i : Fin 8) : SizeClass := ⟨classSize i, 16, 0, 0, 0, 0⟩

def sliceInit (s : State) : State :=
  s.withEnv
    { s.env with
      stats := ⟨0, 0, 0, 0⟩
      classes := fun i =>
        { s.env.classes i with freeList := 0, totalSlices := 0, freeSlices := 0, backingPages := 0 }
      carved := [] }

def isPowerOfTwo (value : ℕ) : Bool := value != 0 && value &&& (value - 1) == 0

def classFor (classes : Fin 8 → SizeClass) (size alignment : ℕ) : Option (Fin 8) :=
  if size = 0 ∨ isPowerOfTwo alignment = false then none
  else
    let required := if size > 8 then size else 8
    (List.finRange 8).find? fun i =>
      required ≤ (classes i).size ∧ alignment ≤ (classes i).alignment

/-- One iteration of the loop of `grow_class`. -/
def pushSlice (page size index : ℕ) (l : Linked.Store) : Linked.Store :=
  ⟨u64 (page + index * size), l.mem.store64 (u64 (page + index * size)) l.head⟩

def growClass (hhdmOffset : ℕ) (i : Fin 8) (s : State) : Bool × State :=
  let (physicalPage, pmm) := Pmm.allocPage s.env.pmm
  let env := { s.env with pmm := pmm }
  if physicalPage = Pmm.invalidPhysicalAddress then
    (false, s.withEnv
      { env with stats := { env.stats with failedAllocations := inc env.stats.failedAllocations } })
  else
    let page := u64 (physicalPage + hhdmOffset)
    let c := env.classes i
    let sliceCount := Pmm.pageSize / c.size
    let l := forUp (pushSlice page c.size) sliceCount 0 ⟨c.freeList, s.mem⟩
    (true,
      { s with
        mem := l.mem
        env :=
          { env with
            classes := Function.update env.classes i
              { c with
                freeList := l.head
                backingPages := inc c.backingPages
                totalSlices := u64 (c.totalSlices + sliceCount)
                freeSlices := u64 (c.freeSlices + sliceCount) }
            stats :=
              { env.stats with
                backingPages := inc env.stats.backingPages
                totalSlices := u64 (env.stats.totalSlices + sliceCount)
                freeSlices := u64 (env.stats.freeSlices + sliceCount) }
            carved := (page, i) :: env.carved } })

/-- The last lines of `slice::alloc`. -/
def popSlice (i : Fin 8) (s : State) : ℕ × State :=
  let c := s.env.classes i
  (c.freeList, s.withEnv
    { s.env with
      classes := Function.update s.env.classes i
        { c with freeList := s.mem.load64 c.freeList, freeSlices := dec c.freeSlices }
      stats := { s.env.stats with freeSlices := dec s.env.stats.freeSlices } })

def sliceAlloc (hhdmOffset size alignment : ℕ) (s : State) : ℕ × State :=
  match classFor s.env.classes size alignment with
  | none =>
    (0, s.withEnv { s.env with stats :=
      { s.env.stats with failedAllocations := inc s.env.stats.failedAllocations } })
  | some i =>
    if (s.env.classes i).freeList = 0 then
      match growClass hhdmOffset i s with
      | (false, s) => (0, s)
      | (true, s) => popSlice i s
    else popSlice i s

def sliceFree (pointer size : ℕ) (s : State) : State :=
  if pointer = 0 then s
  else
    match classFor s.env.classes size 8 with
    | none => s
    | some i =>
      let c := s.env.classes i
      { s with
        mem := s.mem.store64 pointer c.freeList
        env :=
          { s.env with
            classes := Function.update s.env.classes i
              { c with freeList := pointer, freeSlices := inc c.freeSlices }
            stats := { s.env.stats with freeSlices := inc s.env.stats.freeSlices } } }

/-- What the heap sees of the page allocator and the direct map. -/
def backing (hhdmOffset : ℕ) : Heap.Backing Env where
  allocPages n env :=
    ((Pmm.allocPages n env.pmm).1, { env with pmm := (Pmm.allocPages n env.pmm).2 })
  freePages a n env := { env with pmm := Pmm.freePages a n env.pmm }
  physicalToVirtual a := u64 (a + hhdmOffset)

def pageCountForSize (size : ℕ) : ℕ := u64 (size + Pmm.pageSize - 1) / Pmm.pageSize

def heapThreshold : ℕ := 1024 * 1024

def kalloc (hhdmOffset size alignment : ℕ) (s : State) : Option (ℕ × State) :=
  if size = 0 then some (0, s)
  else if size ≤ 2048 ∧ alignment ≤ 16 then some (sliceAlloc hhdmOffset size alignment s)
  else if size ≤ heapThreshold then Heap.alloc (backing hhdmOffset) size alignment s
  else if alignment > Pmm.pageSize then some (0, s)
  else
    let (physical, pmm) := Pmm.allocPages (pageCountForSize size) s.env.pmm
    let s := s.withEnv { s.env with pmm := pmm }
    if physical = Pmm.invalidPhysicalAddress then some (0, s)
    else some (u64 (physical + hhdmOffset), s)

def kfree (hhdmOffset pointer size : ℕ) (s : State) : Option State :=
  if pointer = 0 ∨ size = 0 then some s
  else if size ≤ 2048 then some (sliceFree pointer size s)
  else if Heap.contains s pointer then Heap.free pointer s
  else
    let physical := sub pointer hhdmOffset
    let pmm := Pmm.freePages physical (pageCountForSize size) s.env.pmm
    some (s.withEnv { s.env with pmm := pmm })

end Tori.Kalloc
