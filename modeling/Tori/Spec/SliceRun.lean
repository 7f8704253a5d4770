import Tori.Spec.Kalloc

/-! Runs of the slice allocator, and what it means that they are safe. A run records the live
allocations with what was asked for. Between two calls the clients write their allocations, and
the rest of the kernel uses the page allocator and the memory outside the slices. -/

namespace Tori.Kalloc

open Linked

structure Allocation where
  pointer : ℕ
  size : ℕ
  alignment : ℕ
  deriving DecidableEq

namespace Allocation

def classOf (a : Allocation) : Option (Fin 8) := classFor initialClasses a.size a.alignment

/-- The size of the slice that holds the allocation. -/
def room (a : Allocation) : ℕ := a.classOf.elim 0 classSize

def Has (a : Allocation) (x : ℕ) : Prop := a.pointer ≤ x ∧ x < a.pointer + a.size

end Allocation

/-- `n` is a slice of class `i` in a page carved for that class. -/
def Carved (env : Env) (i : Fin 8) (n : ℕ) : Prop :=
  ∃ page k, (page, i) ∈ env.carved ∧ k < Pmm.pageSize / classSize i ∧ n = page + k * classSize i

/-- What happens outside the allocator: its pages stay in use, and of their bytes only those of
live allocations change. -/
structure Elsewhere (hhdmOffset : ℕ) (live : List Allocation) (s s' : State) : Prop where
  classes : s'.env.classes = s.env.classes
  stats : s'.env.stats = s.env.stats
  carved : s'.env.carved = s.env.carved
  used : ∀ c ∈ s.env.carved, ∀ q, c.1 = hhdmOffset + q * Pmm.pageSize →
    Pmm.isPageUsed s.env.pmm q = true → Pmm.isPageUsed s'.env.pmm q = true
  mem : ∀ c ∈ s.env.carved, ∀ x, c.1 ≤ x → x < c.1 + Pmm.pageSize → (∀ a ∈ live, ¬ a.Has x) →
    s'.mem x = s.mem x

inductive SliceStep (hhdmOffset : ℕ) : State → List Allocation → State → List Allocation → Prop
  | alloc {s s' : State} {live : List Allocation} {size alignment p : ℕ}
      (h : sliceAlloc hhdmOffset size alignment s = (p, s')) :
      SliceStep hhdmOffset s live s' (if p = 0 then live else ⟨p, size, alignment⟩ :: live)
  | free {s : State} {live : List Allocation} {a : Allocation} (ha : a ∈ live) :
      SliceStep hhdmOffset s live (sliceFree a.pointer a.size s) (live.erase a)
  | freeNull {s : State} {live : List Allocation} (size : ℕ) :
      SliceStep hhdmOffset s live (sliceFree 0 size s) live
  | other {s s' : State} {live : List Allocation} (h : Elsewhere hhdmOffset live s s') :
      SliceStep hhdmOffset s live s' live

inductive SliceRun (hhdmOffset : ℕ) : State → List Allocation → Prop
  | init (s : State) (h : s.env.classes = initialClasses) : SliceRun hhdmOffset (sliceInit s) []
  | step {s s' : State} {live live' : List Allocation} (hrun : SliceRun hhdmOffset s live)
      (hstep : SliceStep hhdmOffset s live s' live') : SliceRun hhdmOffset s' live'

/-- The free list of class `i` is the null-terminated list `nodes` of slices carved for the
class, none of which meets a live allocation, and the counters of the class count them. -/
structure ClassSafe (s : State) (live : List Allocation) (i : Fin 8) (nodes : List ℕ) : Prop where
  list : IsList ⟨(s.env.classes i).freeList, s.mem⟩ nodes
  nodup : nodes.Nodup
  carved : ∀ n ∈ nodes, Carved s.env i n
  apart : ∀ n ∈ nodes, ∀ a ∈ live, n + classSize i ≤ a.pointer ∨ a.pointer + a.room ≤ n
  free_eq : (s.env.classes i).freeSlices = nodes.length
  total_eq : nodes.length + live.countP (fun a => a.classOf = some i) = (s.env.classes i).totalSlices

structure SlicesSafe (s : State) (live : List Allocation) : Prop where
  classes : ∀ i, ∃ nodes, ClassSafe s live i nodes
  fits : ∀ a ∈ live, ∃ i, a.classOf = some i ∧ Carved s.env i a.pointer ∧ a.size ≤ a.room ∧
    a.alignment ∣ a.pointer
  apart : live.Pairwise fun a b => a.pointer + a.room ≤ b.pointer ∨ b.pointer + b.room ≤ a.pointer
  backing_sum : s.env.stats.backingPages = ∑ i, (s.env.classes i).backingPages
  total_sum : s.env.stats.totalSlices = ∑ i, (s.env.classes i).totalSlices
  free_sum : s.env.stats.freeSlices = ∑ i, (s.env.classes i).freeSlices

end Tori.Kalloc
