import Tori.Spec.Heap

/-! Walking a region block by block with `next_block`, as `heap::stats` does, and what `alloc` owes to that walk. -/

namespace Tori.Heap

open Linked

/-- The tags of the block at `hdr` agree, and it ends inside the region. -/
structure WellFormed (m : Mem) (limit hdr : ℕ) : Prop where
  size : minBlockSize ≤ blockSize m hdr
  inside : hdr + blockSize m hdr ≤ limit
  tags : m.load64 (blockFooter m hdr) = m.load64 hdr

/-- `next_block` leads from `hdr` over the listed blocks, each well formed, to `stop`. -/
def Walk (m : Mem) (limit : ℕ) : ℕ → List ℕ → ℕ → Prop
  | hdr, [], stop => hdr = stop
  | hdr, x :: xs, stop => hdr = x ∧ WellFormed m limit x ∧ Walk m limit (nextBlock m x) xs stop

variable {σ : Type}

/-- A block on the walk of some region, from its base to exactly its limit. -/
def Visited (s : State σ) (hdr : ℕ) : Prop :=
  ∃ r ∈ s.regions, ∃ hdrs, Walk s.mem r.limit r.base hdrs r.limit ∧ hdr ∈ hdrs

/-- The regions are runs of `grow_page_count` pages, the walks end at their limits, and the free list holds the payloads
of the free blocks in the order of their addresses. -/
structure BlockChain (s : State σ) : Prop where
  count : s.regions.length ≤ maxRegions
  bounds : ∀ r ∈ s.regions, r.base % Pmm.pageSize = 0 ∧ 0 < r.base ∧ r.limit = r.base + regionSize ∧ r.limit < 2 ^ 64
  apart : ∀ r ∈ s.regions, ∀ q ∈ s.regions, ∀ x, r.Has x → q.Has x → r = q
  walk : ∀ r ∈ s.regions, ∃ hdrs, Walk s.mem r.limit r.base hdrs r.limit
  freeList : ∃ nodes, IsList s.list nodes ∧ nodes.Pairwise (fun m n => m < n) ∧
    ∀ n, n ∈ nodes ↔ ∃ hdr, Visited s hdr ∧ blockAllocated s.mem hdr = false ∧ blockPayload hdr = n

/-- After `alloc` has taken the block at `hdr`, of `bsize` bytes, and used `total` of them for a request of `size` bytes
at `p`: the walks still end at the limits, the block holds the request, and a remainder is free and has its size. -/
structure Carved (s : State σ) (hdr bsize total p size : ℕ) : Prop where
  walk : ∀ r ∈ s.regions, ∃ hdrs, Walk s.mem r.limit r.base hdrs r.limit
  block : Visited s hdr ∧ blockAllocated s.mem hdr = true
  room : hdr ≤ p ∧ p + size ≤ hdr + blockSize s.mem hdr
  remainder : minBlockSize ≤ bsize - total →
    Visited s (hdr + total) ∧ blockAllocated s.mem (hdr + total) = false ∧
      blockSize s.mem (hdr + total) = bsize - total

end Tori.Heap
