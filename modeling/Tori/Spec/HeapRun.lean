import Tori.Spec.Heap

/-! Runs of the heap, and what it means that the heap is safe. The page allocator is a list of
answers chosen at each call, so that regions may lie anywhere; clients may write their own
allocations, and anything outside the heap may change at any time. -/

namespace Tori.Heap

open Word Linked

/-- A live allocation: what `alloc` returned and what was asked for. -/
structure Use where
  ptr : ℕ
  size : ℕ
  alignment : ℕ
  deriving DecidableEq

@[ext] structure Block where
  start : ℕ
  size : ℕ
  use : Option Use
  start_even : start % 2 = 0
  size_even : size % 2 = 0
  size_min : minBlockSize ≤ size
  use_fits : ∀ u ∈ use,
    start + 16 ≤ u.ptr ∧ u.ptr + u.size + 8 ≤ start + size ∧ u.ptr % u.alignment = 0

namespace Block

def stop (b : Block) : ℕ := b.start + b.size

def node (b : Block) : ℕ := b.start + 8

def flag (b : Block) : ℕ := if b.use.isSome then 1 else 0

def Has (b : Block) (x : ℕ) : Prop := b.start ≤ x ∧ x < b.stop

/-- The bytes of the header, the footer and the shift word. -/
def Tag (b : Block) (x : ℕ) : Prop :=
  b.start ≤ x ∧ x < b.start + 8 ∨ b.stop - 8 ≤ x ∧ x < b.stop ∨
    ∃ u ∈ b.use, u.ptr - 8 ≤ x ∧ x < u.ptr

/-- The bytes of the free-list node. -/
def Link (b : Block) (x : ℕ) : Prop := b.use = none ∧ b.node ≤ x ∧ x < b.node + 8

end Block

/-- The page allocator that gives the listed addresses in turn and then fails. -/
def answering : Backing (List ℕ) where
  allocPages _ answers :=
    match answers with
    | [] => (Pmm.invalidPhysicalAddress, [])
    | a :: rest => (a, rest)
  freePages _ _ answers := answers
  physicalToVirtual a := a

/-- The block `alloc` is about to take holds the request: neither the pointer nor `total_used` has wrapped. -/
def HoldsRequest {σ : Type} (backing : Backing σ) (size alignment : ℕ) (s : State σ) : Prop :=
  ∀ node s₁, findBlock backing size (atLeast8 alignment) (maxRegions + 1) s = some (some node, s₁) →
    blockHeader node + 16 ≤ userPtr (blockHeader node) (atLeast8 alignment) ∧
      userPtr (blockHeader node) (atLeast8 alignment) + size + 8 ≤ blockHeader node + blockSize s₁.mem (blockHeader node)

/-- A place for a region beside the regions there are. -/
structure NewRegion (rs : List HeapRegion) (virt : ℕ) : Prop where
  aligned : virt % Pmm.pageSize = 0
  pos : 0 < virt
  lt : virt + regionSize < 2 ^ 64
  apart : ∀ r ∈ rs, ∀ x, r.Has x → ¬ (virt ≤ x ∧ x < virt + regionSize)

/-- Every answer is a failure or a place for a new region. -/
def Supplied : List HeapRegion → List ℕ → Prop
  | _, [] => True
  | rs, a :: answers =>
    a = Pmm.invalidPhysicalAddress ∧ Supplied rs answers ∨
      NewRegion rs a ∧ Supplied (rs ++ [⟨a, a + regionSize⟩]) answers

/-- The size and alignment asked for, by live pointer. -/
abbrev Live : Type := ℕ → Option (ℕ × ℕ)

inductive Step (allowed : ℕ → ℕ → Prop) : State (List ℕ) → Live → State (List ℕ) → Live → Prop
  | alloc {s s' : State (List ℕ)} {live : Live} {size k p : ℕ} {answers : List ℕ}
      (heven : size % 2 = 0) (hsize : 2 ≤ size) (hlt : size < 2 ^ 64) (hk : 2 ^ k ≤ 4096)
      (hallowed : allowed size (2 ^ k)) (hsupplied : Supplied s.regions answers)
      (h : alloc answering size (2 ^ k) { s with env := answers } = some (p, s')) :
      Step allowed s live s'
        (if p = 0 then live else Function.update live p (some (size, 2 ^ k)))
  | free {s s' : State (List ℕ)} {live : Live} {p : ℕ} (hlive : live p ≠ none)
      (h : free p s = some s') : Step allowed s live s' (Function.update live p none)
  | store {s : State (List ℕ)} {live : Live} (x : ℕ) (v : BitVec 8)
      (hx : (∃ p size alignment, live p = some (size, alignment) ∧ p ≤ x ∧ x < p + size) ∨
        ∀ r ∈ s.regions, ¬ r.Has x) :
      Step allowed s live (s.withMem fun m => m.store8 x v) live

inductive Run (allowed : ℕ → ℕ → Prop) : State (List ℕ) → Live → Prop
  | init (mem : Mem) : Run allowed (init mem []) fun _ => none
  | step {s s' : State (List ℕ)} {live live' : Live} (hrun : Run allowed s live)
      (hstep : Step allowed s live s' live') : Run allowed s' live'

/-- The blocks of `bs` are the blocks of the heap and `live` its allocations: they tile the
regions, the footers repeat the headers, the free list is ascending and holds the payloads
of the free blocks, and the allocations meet neither each other nor any metadata. -/
structure Safe {σ : Type} (s : State σ) (live : Live) (bs : Set Block) : Prop where
  tiles : ∀ x, (∃ r ∈ s.regions, r.Has x) ↔ ∃ b ∈ bs, b.Has x
  disjoint : ∀ a ∈ bs, ∀ b ∈ bs, ∀ x, a.Has x → b.Has x → a = b
  header : ∀ b ∈ bs, s.mem.load64 b.start = b.size + b.flag
  footer : ∀ b ∈ bs, s.mem.load64 (b.stop - 8) = s.mem.load64 b.start
  freeList : ∃ nodes, IsList s.list nodes ∧ nodes.Pairwise (fun m n => m < n) ∧
    ∀ n, n ∈ nodes ↔ ∃ b ∈ bs, b.use = none ∧ b.node = n
  live_iff : ∀ p size alignment,
    live p = some (size, alignment) ↔ ∃ b ∈ bs, b.use = some ⟨p, size, alignment⟩
  aligned : ∀ p size alignment, live p = some (size, alignment) → p % alignment = 0
  apart : ∀ p q size size' alignment alignment' x, p ≠ q → live p = some (size, alignment) →
    live q = some (size', alignment') → p ≤ x → x < p + size → ¬ (q ≤ x ∧ x < q + size')
  metadata : ∀ p size alignment x, live p = some (size, alignment) → p ≤ x → x < p + size →
    ∀ b ∈ bs, ¬ b.Tag x ∧ ¬ b.Link x

end Tori.Heap
