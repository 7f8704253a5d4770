import Tori.Spec.Pmm

/-! What the page allocator is for: which pages `init` may hand out, which run `alloc_pages` takes, and how long a
reference keeps a page. -/

namespace Tori.Pmm

/-- The fields are `uint64_t`. -/
structure BootInfo.Words (bootInfo : BootInfo) : Prop where
  regions : ∀ r ∈ bootInfo.regions, r.base < 2 ^ 64 ∧ r.length < 2 ^ 64
  kernel : bootInfo.kernelPhysicalBase < 2 ^ 64 ∧ bootInfo.kernelPhysicalSize < 2 ^ 64

/-- The region lies in the address space and its kind may be used. -/
def MemoryRegion.Valid (r : MemoryRegion) : Prop :=
  isInitiallyAllocatable r.kind = true ∧ r.length ≠ 0 ∧ r.base + r.length < 2 ^ 64

/-- Every byte of page `p` lies in the region. -/
def MemoryRegion.Holds (r : MemoryRegion) (p : ℕ) : Prop := ∀ x, x / pageSize = p → r.base ≤ x ∧ x < r.base + r.length

def BootInfo.Usable (bootInfo : BootInfo) (p : ℕ) : Prop := ∃ r ∈ bootInfo.regions, r.Valid ∧ r.Holds p

/-- Some byte of page `p` belongs to the kernel image. -/
def BootInfo.InKernel (bootInfo : BootInfo) (p : ℕ) : Prop :=
  ∃ x, x / pageSize = p ∧ bootInfo.kernelPhysicalBase ≤ x ∧
    x < bootInfo.kernelPhysicalBase + bootInfo.kernelPhysicalSize

/-- `align_up` wraps for the base of a usable region. -/
def BootInfo.WrappingRegion (bootInfo : BootInfo) : Prop :=
  ∃ r ∈ bootInfo.regions, r.Valid ∧ 2 ^ 64 - pageSize < r.base

/-- The end of the kernel image, or its `align_up`, wraps. -/
def BootInfo.WrappingKernel (bootInfo : BootInfo) : Prop :=
  2 ^ 64 - pageSize < bootInfo.kernelPhysicalBase + bootInfo.kernelPhysicalSize

/-- `n` pages from `page` are managed and free. -/
def FreeRun (s : State) (page n : ℕ) : Prop :=
  page + n ≤ maxManagedPages ∧ ∀ q, page ≤ q → q < page + n → isPageUsed s q = false

/-- The page at distance `offset` from the hint. -/
def State.from (s : State) (offset : ℕ) : ℕ := (s.nextSearchPage + offset) % maxManagedPages

/-- Calls on one page. -/
inductive RefOp
  | retain
  | free
  deriving DecidableEq

def RefOp.apply (p : ℕ) : RefOp → State → State
  | .retain, s => retainPage (p * pageSize) s
  | .free, s => freePage (p * pageSize) s

def runRefs (p : ℕ) (ops : List RefOp) (s : State) : State := ops.foldl (fun s op => op.apply p s) s

/-- The frees never exceed the retains: the first reference is still there. -/
def Live (ops : List RefOp) : Prop := ∀ pre, pre <+: ops → pre.count .free ≤ pre.count .retain

end Tori.Pmm
