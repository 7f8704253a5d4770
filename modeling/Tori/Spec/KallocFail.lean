import Tori.Spec.HeapWalk
import Tori.Spec.Kalloc
import Tori.Spec.PmmPages

/-! When an allocation may fail, and what a failed one leaves behind. -/

namespace Tori.Heap

open Linked

variable {σ : Type}

/-- A block of the free list is large enough for the request. -/
def Serves (s : State σ) (size alignment : ℕ) : Prop :=
  ∃ nodes, IsList s.list nodes ∧ ∃ n ∈ nodes, fits s.mem size (atLeast8 alignment) n = true

end Tori.Heap

namespace Tori.Kalloc

open Word Linked Heap

/-- Nothing but `heap_failed_allocations` differs. -/
structure Unchanged (s s' : State) : Prop where
  regions : s'.regions = s.regions
  backingPages : s'.backingPages = s.backingPages
  freeList : ∀ nodes, IsList s'.list nodes ↔ IsList s.list nodes
  headers : ∀ hdr, Visited s hdr → s'.mem.load64 hdr = s.mem.load64 hdr
  freePages : ∀ page, Pmm.isPageUsed s'.env.pmm page = Pmm.isPageUsed s.env.pmm page
  failed : s'.failedAllocations = s.failedAllocations ∨ s'.failedAllocations = inc s.failedAllocations

/-- `grow_heap` fails: the table of regions is full, or there is no run of pages for a region. -/
def CannotGrow (s : State) : Prop :=
  maxRegions ≤ s.regions.length ∨ ∀ page, ¬Pmm.FreeRun s.env.pmm page growPageCount

end Tori.Kalloc
