import Tori.Lib.Loop
import Tori.Lib.Word

/-! The physical page allocator (`kernel/src/memory/pmm.cpp`). The bitmap keeps the
source's 64-bit words, reference counts are the values of `uint16_t`, the counters
wrap as `uint64_t`. The spinlock is taken around each operation, so an operation is
one step. -/

namespace Tori.Pmm

open Word Loop

def pageSize : ℕ := 4096
def maxManagedPages : ℕ := 1024 * 1024
def invalidPhysicalAddress : ℕ := 2 ^ 64 - 1
def uint16Max : ℕ := 65535

structure Stats where
  managedPages : ℕ
  freePages : ℕ
  usedPages : ℕ
  reclaimedBootloaderPages : ℕ
  skippedPages : ℕ

structure State where
  pageBitmap : ℕ → BitVec 64
  pageRefcounts : ℕ → ℕ
  allocatorStats : Stats
  nextSearchPage : ℕ

inductive MemoryKind where
  | usable | reserved | acpiReclaimable | acpiNvs | badMemory | bootloaderReclaimable
  | kernelAndModules | framebuffer | reservedMapped | unknown
  deriving DecidableEq

structure MemoryRegion where
  base : ℕ
  length : ℕ
  kind : MemoryKind

/-- What `init` reads of `boot::BootInfo`; `regions` lists `memory_region_at`, and
`kernelPhysicalSize` is the distance of the two linker symbols. -/
structure BootInfo where
  regions : List MemoryRegion
  kernelPhysicalBase : ℕ
  kernelPhysicalSize : ℕ

def isInitiallyAllocatable (kind : MemoryKind) : Bool :=
  kind == .usable || kind == .bootloaderReclaimable

def pageIndexValid (page : ℕ) : Bool := page < maxManagedPages

def isPageUsed (s : State) (page : ℕ) : Bool :=
  (s.pageBitmap (page / 64) &&& (1#64 <<< (page % 64))) != 0#64

def pageRangeFree (s : State) (startPage pageCount : ℕ) : Bool :=
  if pageCount = 0 ∨ startPage ≥ maxManagedPages ∨ u64 (startPage + pageCount) < startPage then
    false
  else if u64 (startPage + pageCount) > maxManagedPages then false
  else (findUp (fun page => isPageUsed s page) pageCount startPage).isNone

def markPageUsed (page : ℕ) (s : State) : State :=
  if !pageIndexValid page || isPageUsed s page then s
  else
    { s with
      pageBitmap := Function.update s.pageBitmap (page / 64)
        (s.pageBitmap (page / 64) ||| (1#64 <<< (page % 64)))
      pageRefcounts := Function.update s.pageRefcounts page 1
      allocatorStats :=
        { s.allocatorStats with
          freePages := dec s.allocatorStats.freePages
          usedPages := inc s.allocatorStats.usedPages } }

def markPageFree (page : ℕ) (s : State) : State :=
  if !pageIndexValid page || !isPageUsed s page then s
  else
    { s with
      pageBitmap := Function.update s.pageBitmap (page / 64)
        (s.pageBitmap (page / 64) &&& ~~~(1#64 <<< (page % 64)))
      pageRefcounts := Function.update s.pageRefcounts page 0
      allocatorStats :=
        { s.allocatorStats with
          freePages := inc s.allocatorStats.freePages
          usedPages := dec s.allocatorStats.usedPages } }

def reserveAllPages : State where
  pageBitmap := fun _ => BitVec.allOnes 64
  pageRefcounts := fun _ => 0
  allocatorStats :=
    { managedPages := maxManagedPages, freePages := 0, usedPages := maxManagedPages,
      reclaimedBootloaderPages := 0, skippedPages := 0 }
  nextSearchPage := 0

def addSkipped (n : ℕ) (s : State) : State :=
  { s with allocatorStats :=
      { s.allocatorStats with skippedPages := u64 (s.allocatorStats.skippedPages + n) } }

def addReclaimed (s : State) : State :=
  { s with allocatorStats :=
      { s.allocatorStats with
        reclaimedBootloaderPages := inc s.allocatorStats.reclaimedBootloaderPages } }

/-- The loop body of `free_range`. -/
def freeRangePage (bootloaderReclaimable : Bool) (page : ℕ) (s : State) : State :=
  if isPageUsed s page then
    let s := markPageFree page s
    if bootloaderReclaimable then addReclaimed s else s
  else s

def freeRange (base length : ℕ) (bootloaderReclaimable : Bool) (s : State) : State :=
  if length = 0 ∨ u64 (base + length) < base then s
  else
    let start := alignUp base pageSize
    let endAddr := alignDown (u64 (base + length)) pageSize
    if endAddr ≤ start then s
    else
      let startPage := start / pageSize
      let endPage := endAddr / pageSize
      if startPage ≥ maxManagedPages then addSkipped (endPage - startPage) s
      else if endPage > maxManagedPages then
        forUp (freeRangePage bootloaderReclaimable) (maxManagedPages - startPage) startPage
          (addSkipped (endPage - maxManagedPages) s)
      else forUp (freeRangePage bootloaderReclaimable) (endPage - startPage) startPage s

def reserveRange (base length : ℕ) (s : State) : State :=
  if length = 0 ∨ u64 (base + length) < base then s
  else
    let startPage := alignDown base pageSize / pageSize
    let endPage := alignUp (u64 (base + length)) pageSize / pageSize
    if startPage ≥ maxManagedPages then s
    else
      let endPage := if endPage > maxManagedPages then maxManagedPages else endPage
      forUp markPageUsed (endPage - startPage) startPage s

/-- One iteration of the region loop of `init`. -/
def initRegion (s : State) (region : MemoryRegion) : State :=
  if isInitiallyAllocatable region.kind then
    freeRange region.base region.length (region.kind == .bootloaderReclaimable) s
  else s

def init (bootInfo : BootInfo) : State :=
  reserveRange bootInfo.kernelPhysicalBase bootInfo.kernelPhysicalSize
    (reserveRange 0 pageSize (bootInfo.regions.foldl initRegion reserveAllPages))

/-- The search of `alloc_pages`: circular from `next_search_page`. -/
def findRun (s : State) (pageCount : ℕ) : Option ℕ :=
  (findUp (fun offset => pageRangeFree s ((s.nextSearchPage + offset) % maxManagedPages) pageCount)
    maxManagedPages 0).map fun offset => (s.nextSearchPage + offset) % maxManagedPages

def allocPages (pageCount : ℕ) (s : State) : ℕ × State :=
  if pageCount = 0 ∨ pageCount > maxManagedPages then (invalidPhysicalAddress, s)
  else
    match findRun s pageCount with
    | none => (invalidPhysicalAddress, s)
    | some page =>
      (page * pageSize,
        { forUp markPageUsed pageCount page s with
          nextSearchPage := (page + pageCount) % maxManagedPages })

def allocPage (s : State) : ℕ × State := allocPages 1 s

def retainPage (physicalAddress : ℕ) (s : State) : State :=
  if physicalAddress % pageSize ≠ 0 then s
  else
    let page := physicalAddress / pageSize
    if !pageIndexValid page || !isPageUsed s page then s
    else if s.pageRefcounts page ≠ uint16Max then
      { s with pageRefcounts := Function.update s.pageRefcounts page (s.pageRefcounts page + 1) }
    else s

def pageRefCount (physicalAddress : ℕ) (s : State) : ℕ :=
  if physicalAddress % pageSize ≠ 0 then 0
  else
    let page := physicalAddress / pageSize
    if !pageIndexValid page || !isPageUsed s page then 0 else s.pageRefcounts page

/-- The loop body of `free_pages`. -/
def freeOne (page : ℕ) (s : State) : State :=
  if !isPageUsed s page then s
  else if s.pageRefcounts page > 1 then
    { s with pageRefcounts := Function.update s.pageRefcounts page (s.pageRefcounts page - 1) }
  else markPageFree page s

def freePages (physicalAddress pageCount : ℕ) (s : State) : State :=
  if physicalAddress % pageSize ≠ 0 ∨ pageCount = 0 then s
  else
    let page := physicalAddress / pageSize
    if !pageIndexValid page ∨ u64 (page + pageCount) < page then s
    else
      let endPage := if page + pageCount > maxManagedPages then maxManagedPages else page + pageCount
      let s := forUp freeOne (endPage - page) page s
      if page < s.nextSearchPage then { s with nextSearchPage := page } else s

def freePage (physicalAddress : ℕ) (s : State) : State := freePages physicalAddress 1 s

/-- A call with arbitrary arguments. -/
inductive Op where
  | allocPages (pageCount : ℕ)
  | retainPage (physicalAddress : ℕ)
  | freePages (physicalAddress pageCount : ℕ)

def Op.apply : Op → State → State
  | .allocPages n, s => (Pmm.allocPages n s).2
  | .retainPage a, s => Pmm.retainPage a s
  | .freePages a n, s => Pmm.freePages a n s

def run (s : State) (ops : List Op) : State := ops.foldl (fun s op => op.apply s) s

/-- The allocator with the references its clients hold, per page. -/
structure Client where
  pmm : State
  held : ℕ → ℕ

/-- Page `p` lies in the run of `n` pages at `a`. -/
def InRun (a n p : ℕ) : Prop := a / pageSize ≤ p ∧ p < a / pageSize + n

instance (a n p : ℕ) : Decidable (InRun a n p) := inferInstanceAs (Decidable (_ ∧ _))

/-- What a disciplined client may do: `alloc_pages` hands it one reference to every page
of the run, `retain_page` adds one to a page of a run that is still referenced, and
`free_pages` gives back one reference to each page of a run it holds references to.
`retain_page` elsewhere is allowed and gives no reference. -/
inductive ClientStep : Client → Client → Prop
  | alloc (c : Client) (n a : ℕ) (s : State) (h : allocPages n c.pmm = (a, s))
      (hok : a ≠ invalidPhysicalAddress) :
      ClientStep c ⟨s, fun p => if InRun a n p then c.held p + 1 else c.held p⟩
  | allocFail (c : Client) (n : ℕ) (s : State)
      (h : allocPages n c.pmm = (invalidPhysicalAddress, s)) : ClientStep c ⟨s, c.held⟩
  | retain (c : Client) (a : ℕ) :
      ClientStep c ⟨retainPage a c.pmm, fun p =>
        if a = p * pageSize ∧ 0 < c.held p then c.held p + 1 else c.held p⟩
  | free (c : Client) (a n : ℕ) (ha : a % pageSize = 0) (h : ∀ p, InRun a n p → 0 < c.held p) :
      ClientStep c ⟨freePages a n c.pmm, fun p =>
        if InRun a n p then c.held p - 1 else c.held p⟩

/-- Disciplined runs from the state `init` leaves, with at most 65535 references a page. -/
inductive ClientRun (bootInfo : BootInfo) : Client → Prop
  | init : ClientRun bootInfo ⟨init bootInfo, fun _ => 0⟩
  | step {c c' : Client} (hrun : ClientRun bootInfo c) (hstep : ClientStep c c')
      (hbound : ∀ p, c'.held p ≤ uint16Max) : ClientRun bootInfo c'

end Tori.Pmm
