import Tori.Spec.HeapWalk
import Tori.Proofs.HeapOdd
import Tori.Proofs.HeapSafety

/-! The walk over the blocks of a region. The free blocks of a chain form a well-formed heap of their own, in which no
block is in use, so what `grow_heap` and `alloc` do to it is known; the other blocks keep their tags because nothing is
written outside the free ones. -/

namespace Tori.Heap

open Word Linked

variable {σ : Type} {m m' : Mem} {limit x y z stop : ℕ} {xs ys : List ℕ}

/-! ### Walks -/

theorem walk_append : Walk m limit x (xs ++ ys) stop ↔ ∃ k, Walk m limit x xs k ∧ Walk m limit k ys stop := by
  induction xs generalizing x with
  | nil => simp [Walk]
  | cons z xs ih =>
    simp only [List.cons_append, Walk, ih]
    constructor
    · rintro ⟨h1, h2, k, h3, h4⟩
      exact ⟨k, ⟨h1, h2, h3⟩, h4⟩
    · rintro ⟨k, ⟨h1, h2, h3⟩, h4⟩
      exact ⟨h1, h2, k, h3, h4⟩

theorem blockSize_even (m : Mem) (x : ℕ) : blockSize m x % 2 = 0 := by
  rw [blockSize, and_sizeMask (m.load64_lt _)]
  omega

section

variable (h : WellFormed m limit x) (hlimit : limit < 2 ^ 64)
include h hlimit

theorem WellFormed.next : nextBlock m x = x + blockSize m x := by
  have hinside := h.inside
  exact u64_of_lt (by omega)

theorem WellFormed.footer : blockFooter m x = x + blockSize m x - 8 := by
  have hinside := h.inside
  have hmin : 32 ≤ blockSize m x := h.size
  exact sub_of_le (by omega) (by omega)

theorem WellFormed.congr (hh : m'.load64 x = m.load64 x)
    (hf : m'.load64 (x + blockSize m x - 8) = m.load64 (x + blockSize m x - 8)) :
    WellFormed m' limit x ∧ blockSize m' x = blockSize m x := by
  have hsize : blockSize m' x = blockSize m x := by rw [blockSize, hh, blockSize]
  have hfoot : blockFooter m' x = blockFooter m x := by rw [blockFooter, hsize, blockFooter]
  refine ⟨⟨by rw [hsize]; exact h.size, by rw [hsize]; exact h.inside, ?_⟩, hsize⟩
  have htags := h.tags
  rw [h.footer hlimit] at hfoot htags
  rw [hfoot, hf, hh, htags]

end

theorem walk_congr (h : Walk m limit x xs stop)
    (hsame : ∀ y ∈ xs, WellFormed m' limit y ∧ blockSize m' y = blockSize m y) : Walk m' limit x xs stop := by
  induction xs generalizing x with
  | nil => exact h
  | cons z xs ih =>
    obtain ⟨rfl, -, hrest⟩ := h
    obtain ⟨hwf, hsize⟩ := hsame x List.mem_cons_self
    refine ⟨rfl, hwf, ih ?_ fun y hy => hsame y (List.mem_cons_of_mem _ hy)⟩
    rw [nextBlock, hsize]
    exact hrest

section

variable (hlimit : limit < 2 ^ 64)
include hlimit

/-- The blocks of a walk are even, well formed, and lie one after the other from its start to its end. -/
theorem Walk.mem (h : Walk m limit x xs stop) (heven : x % 2 = 0) :
    x ≤ stop ∧ ∀ y ∈ xs, WellFormed m limit y ∧ y % 2 = 0 ∧ x ≤ y ∧ y + blockSize m y ≤ stop := by
  induction xs generalizing x with
  | nil =>
    exact ⟨h.le, by simp⟩
  | cons z xs ih =>
    obtain ⟨rfl, hwf, hrest⟩ := h
    have hmasked := blockSize_even m x
    rw [hwf.next hlimit] at hrest
    obtain ⟨hle, hall⟩ := ih hrest (by omega)
    refine ⟨by omega, fun y hy => ?_⟩
    rcases List.mem_cons.mp hy with rfl | hy
    · exact ⟨hwf, heven, le_rfl, hle⟩
    · obtain ⟨h1, h2, h3, h4⟩ := hall y hy
      exact ⟨h1, h2, by omega, h4⟩

/-- The walk up to a block and the walk after it. -/
theorem Walk.split (h : Walk m limit x (xs ++ y :: ys) stop) (heven : x % 2 = 0) :
    Walk m limit x xs y ∧ WellFormed m limit y ∧ Walk m limit (y + blockSize m y) ys stop ∧
      (y + blockSize m y) % 2 = 0 := by
  have hy := ((h.mem hlimit heven).2 y (List.mem_append_right _ List.mem_cons_self)).2.1
  have hsize := blockSize_even m y
  obtain ⟨k, h1, rfl, hwf, h2⟩ := walk_append.mp h
  rw [hwf.next hlimit] at h2
  exact ⟨h1, hwf, h2, by omega⟩

theorem Walk.apart (h : Walk m limit x xs stop) (heven : x % 2 = 0) (hy : y ∈ xs) (hz : z ∈ xs) (hne : y ≠ z) :
    y + blockSize m y ≤ z ∨ z + blockSize m z ≤ y := by
  obtain ⟨A, C, rfl⟩ := List.append_of_mem hy
  obtain ⟨h1, -, h2, hnext⟩ := h.split hlimit heven
  rcases List.mem_append.mp hz with hz | hz
  · exact Or.inr ((h1.mem hlimit heven).2 z hz).2.2.2
  · exact Or.inl ((h2.mem hlimit hnext).2 z ((List.mem_cons.mp hz).resolve_left (Ne.symm hne))).2.2.1

end

theorem walk_unique (h1 : Walk m limit x xs limit) (h2 : Walk m limit x ys limit) : xs = ys := by
  have hend : ¬WellFormed m limit limit := fun h => by
    have hmin : 32 ≤ blockSize m limit := h.size
    have hinside := h.inside
    omega
  induction xs generalizing x ys with
  | nil =>
    cases ys with
    | nil => rfl
    | cons y ys =>
      obtain ⟨rfl, hwf, -⟩ := h2
      exact absurd (h1 ▸ hwf) hend
  | cons z xs ih =>
    obtain ⟨rfl, hwf, hrest⟩ := h1
    cases ys with
    | nil =>
      exact absurd (h2 ▸ hwf) hend
    | cons y ys =>
      obtain ⟨rfl, -, hrest'⟩ := h2
      rw [ih hrest hrest']

variable {b : Block} {size alignment : ℕ} {s' : State σ} {backing : Backing σ} {ok : Bool} {Fresh : σ → List HeapRegion → Prop}

theorem Tagged.wellFormed (h : Tagged m b) (hle : b.stop ≤ limit) (hlimit : limit < 2 ^ 64) :
    WellFormed m limit b.start := by
  have hmin := b.min_le
  unfold Block.stop at hle
  refine ⟨by rw [h.blockSize]; exact b.size_min, by rw [h.blockSize]; exact hle, ?_⟩
  rw [blockFooter, h.blockSize, sub_of_le (by omega) (by omega)]
  exact h.footer.trans h.header.symm

theorem Tagged.walk (h : Tagged m b) (hlt : b.stop < 2 ^ 64) : Walk m b.stop b.start [b.start] b.stop := by
  have hwf := h.wellFormed le_rfl hlt
  refine ⟨rfl, hwf, ?_⟩
  rw [hwf.next hlt, h.blockSize]
  rfl

/-! ### The free blocks of a chain -/

variable {s : State σ}

/-- A block on the walk of region `r`. -/
structure OnWalk (s : State σ) (r : HeapRegion) (hdrs : List ℕ) (x : ℕ) : Prop where
  region : r ∈ s.regions
  walk : Walk s.mem r.limit r.base hdrs r.limit
  mem : x ∈ hdrs
  limit : r.limit < 2 ^ 64
  base : 0 < r.base ∧ r.base % 2 = 0
  even : x % 2 = 0
  le : r.base ≤ x
  wf : WellFormed s.mem r.limit x
  size : 32 ≤ blockSize s.mem x
  inside : x + blockSize s.mem x ≤ r.limit

theorem BlockChain.base_even (h : BlockChain s) {r : HeapRegion} (hr : r ∈ s.regions) : r.base % 2 = 0 := by
  obtain ⟨hpage, -⟩ := h.bounds r hr
  unfold Pmm.pageSize at hpage
  omega

theorem BlockChain.onWalk (h : BlockChain s) (hx : Visited s x) : ∃ r hdrs, OnWalk s r hdrs x := by
  obtain ⟨r, hr, hdrs, hwalk, hmem⟩ := hx
  obtain ⟨-, hpos, -, hlimit⟩ := h.bounds r hr
  have hbase := h.base_even hr
  obtain ⟨hwf, heven, hle, -⟩ := (hwalk.mem hlimit hbase).2 x hmem
  exact ⟨r, hdrs, hr, hwalk, hmem, hlimit, ⟨hpos, hbase⟩, heven, hle, hwf, hwf.size, hwf.inside⟩

theorem BlockChain.blocks_apart (h : BlockChain s) (hx : Visited s x) (hy : Visited s y) (hne : x ≠ y) :
    x + blockSize s.mem x ≤ y ∨ y + blockSize s.mem y ≤ x := by
  obtain ⟨r, hdrs, hx⟩ := h.onWalk hx
  obtain ⟨q, hdrs', hy⟩ := h.onWalk hy
  by_cases hrq : r = q
  · subst hrq
    have hymem := hy.mem
    rw [← walk_unique hx.walk hy.walk] at hymem
    exact hx.walk.apart hx.limit hx.base.2 hx.mem hymem hne
  · have h1 := hx.le
    have h2 := hx.inside
    have h3 := hy.le
    have h4 := hy.inside
    have hsize := hx.size
    have hsize' := hy.size
    by_contra hover
    exact hrq (h.apart r hx.region q hy.region (max x y) ⟨by omega, by omega⟩ ⟨by omega, by omega⟩)

/-- The free blocks the walks visit. -/
def freeBlocks (s : State σ) : Set Block :=
  { b | b.use = none ∧ Visited s b.start ∧ b.size = blockSize s.mem b.start ∧ blockAllocated s.mem b.start = false }

theorem load64_of_free (hfree : blockAllocated m x = false) : m.load64 x = blockSize m x := by
  rw [blockAllocated, and_allocatedFlag, decide_eq_false_iff_not] at hfree
  rw [blockSize, and_sizeMask (m.load64_lt _)]
  omega

section

variable (h : BlockChain s)
include h

theorem BlockChain.freeBlock (hx : Visited s x) (hfree : blockAllocated s.mem x = false) :
    ∃ b ∈ freeBlocks s, b.start = x := by
  obtain ⟨r, hdrs, hon⟩ := h.onWalk hx
  exact ⟨⟨x, blockSize s.mem x, none, hon.even, blockSize_even _ _, hon.wf.size, by simp⟩, ⟨rfl, hx, rfl, hfree⟩, rfl⟩

theorem BlockChain.payload (hx : Visited s x) : blockPayload x = x + 8 := by
  obtain ⟨r, hdrs, hon⟩ := h.onWalk hx
  have h1 := hon.inside
  have h2 := hon.size
  have h3 := hon.limit
  exact u64_of_lt (by omega)

theorem BlockChain.has {a : Block} (ha : a ∈ freeBlocks s) (hy : Visited s y)
    (hz : a.Has z) (hyz : y ≤ z ∧ z < y + blockSize s.mem y) : a.start = y := by
  by_contra hne
  have hap := h.blocks_apart ha.2.1 hy hne
  rw [← ha.2.2.1] at hap
  unfold Block.Has Block.stop at hz
  omega

/-- The free blocks are a well-formed heap of their own. -/
theorem BlockChain.freeWf : Wf s.regions s.list (freeBlocks s) := by
  obtain ⟨ns, hlist, hasc, hns⟩ := h.freeList
  have hmem : ∀ n, n ∈ ns ↔ ∃ b ∈ freeBlocks s, b.use = none ∧ b.node = n := by
    intro n
    rw [hns]
    constructor
    · rintro ⟨x, hx, hfree, rfl⟩
      obtain ⟨b, hb, rfl⟩ := h.freeBlock hx hfree
      exact ⟨b, hb, hb.1, (h.payload hx).symm⟩
    · rintro ⟨b, hb, -, rfl⟩
      exact ⟨b.start, hb.2.1, hb.2.2.2, h.payload hb.2.1⟩
  refine ⟨fun a ha b hb x hax hbx => ?_, fun b hb => ?_, fun b hb x hx => ?_, ⟨h.count, fun r hr => (h.bounds r hr).2.2.1,
    fun r hr => ?_⟩, ns, hlist, ?_, hmem⟩
  · have hstart := h.has ha hb.2.1 hax (by rw [← hb.2.2.1]; exact hbx)
    ext1
    · exact hstart
    · rw [ha.2.2.1, hb.2.2.1, hstart]
    · rw [ha.1, hb.1]
  · obtain ⟨r, hdrs, hon⟩ := h.onWalk hb.2.1
    have hword : s.list.mem.load64 b.start = b.size := (load64_of_free hb.2.2.2).trans hb.2.2.1.symm
    refine Tagged.of_free hb.1 hword ?_
    have htags := hon.wf.tags
    rw [hon.wf.footer hon.limit, ← hb.2.2.1] at htags
    exact htags.trans hword
  · obtain ⟨r, hdrs, hon⟩ := h.onWalk hb.2.1
    have h1 := hon.le
    have h2 := hon.inside
    rw [← hb.2.2.1] at h2
    exact ⟨r, hon.region, h1.trans hx.1, lt_of_lt_of_le hx.2 h2⟩
  · obtain ⟨h1, h2, -, h4⟩ := h.bounds r hr
    exact ⟨h1, h2, h4⟩
  · refine hasc.imp_of_mem fun {m n} hm hn hlt => ?_
    obtain ⟨a, ha, -, rfl⟩ := (hmem m).mp hm
    obtain ⟨b, hb, -, rfl⟩ := (hmem n).mp hn
    have hap := h.blocks_apart ha.2.1 hb.2.1 fun heq => by
      unfold Block.node at hlt
      omega
    rw [← ha.2.2.1, ← hb.2.2.1] at hap
    have h1 := a.min_le
    unfold Block.node at hlt ⊢
    omega

/-- The tags of a block are not the words of a free-list node. -/
theorem BlockChain.tag_not_link (hy : Visited s y)
    (hz : y ≤ z ∧ z < y + 8 ∨ y + blockSize s.mem y - 8 ≤ z ∧ z < y + blockSize s.mem y) {c : Block}
    (hc : c ∈ freeBlocks s) : ¬c.Link z := by
  intro hl
  obtain ⟨r, hdrs, hon⟩ := h.onWalk hy
  have hsize := hon.size
  have hstart := h.has hc hy hl.has (by omega)
  have hnode := hl.2
  unfold Block.node at hnode
  omega

end

/-- `m'` has the tags of the block. -/
def SameTags (m m' : Mem) (x : ℕ) : Prop :=
  m'.load64 x = m.load64 x ∧ m'.load64 (x + blockSize m x - 8) = m.load64 (x + blockSize m x - 8)

theorem SameTags.allocated (h : SameTags m m' x) : blockAllocated m' x = blockAllocated m x := by
  rw [blockAllocated, h.1, blockAllocated]

theorem sameTags_of_bytes (hsize : 8 ≤ blockSize m x)
    (h : ∀ z, x ≤ z ∧ z < x + 8 ∨ x + blockSize m x - 8 ≤ z ∧ z < x + blockSize m x → m' z = m z) : SameTags m m' x :=
  ⟨Mem.load64_congr fun z h1 h2 => h z (Or.inl ⟨h1, h2⟩), Mem.load64_congr fun z h1 h2 => h z (Or.inr ⟨h1, by omega⟩)⟩

theorem Walk.sameTags (hlimit : limit < 2 ^ 64) (heven : x % 2 = 0) (h : Walk m limit x xs stop)
    (hsame : ∀ y ∈ xs, SameTags m m' y) : Walk m' limit x xs stop :=
  walk_congr h fun y hy => ((h.mem hlimit heven).2 y hy).1.congr hlimit (hsame y hy).1 (hsame y hy).2

/-- One block of the walk is cut in two. -/
theorem Walk.cut (hlimit : limit < 2 ^ 64) (heven : x % 2 = 0) (h : Walk m limit x (xs ++ y :: ys) stop)
    (hsame : ∀ z ∈ xs ++ y :: ys, z ≠ y → SameTags m m' z) (hy : WellFormed m' limit y)
    (hz : WellFormed m' limit z) (hfirst : y + blockSize m' y = z)
    (hsecond : z + blockSize m' z = y + blockSize m y) : Walk m' limit x (xs ++ y :: z :: ys) stop := by
  obtain ⟨h1, hwf, h2, hnext⟩ := h.split hlimit heven
  refine walk_append.mpr ⟨y, h1.sameTags hlimit heven fun w hw => hsame w (List.mem_append_left _ hw) ?_,
    rfl, hy, (hy.next hlimit).trans hfirst, hz, ?_⟩
  · rintro rfl
    obtain ⟨hwf, -, -, hend⟩ := (h1.mem hlimit heven).2 w hw
    have hmin : 32 ≤ blockSize m w := hwf.size
    omega
  · rw [hz.next hlimit, hsecond]
    refine h2.sameTags hlimit hnext fun w hw =>
      hsame w (List.mem_append_right _ (List.mem_cons_of_mem _ hw)) ?_
    rintro rfl
    have hle := ((h2.mem hlimit hnext).2 w hw).2.2.1
    have hmin : 32 ≤ blockSize m w := hwf.size
    omega

/-! ### Growing -/

theorem BlockChain.of_same (h : BlockChain s) (hr : s'.regions = s.regions) (hl : s'.list = s.list) :
    BlockChain s' := by
  have hmem : s'.mem = s.mem := congrArg Store.mem hl
  have hvisited : ∀ x, Visited s' x ↔ Visited s x := fun x => by
    unfold Visited
    rw [hr, hmem]
  refine ⟨hr ▸ h.count, hr ▸ h.bounds, hr ▸ h.apart, ?_, ?_⟩
  · rw [hr, hmem]
    exact h.walk
  · simp only [hl, hmem, hvisited]
    exact h.freeList

theorem BlockChain.add_region {s1 : State σ} (h : BlockChain s) (hlen : s.regions.length < maxRegions) {virt : ℕ}
    (hn : NewRegion s.regions virt) (hr : s1.regions = s.regions ++ [⟨virt, virt + regionSize⟩])
    (hl : s1.list = s.list) (hcall : initRegionAsFreeBlock virt regionSize s1 = some s') : BlockChain s' := by
  obtain ⟨l', g, hi, hwf, hgu, hg, hframe⟩ := h.freeWf.add_region hlen hn
  obtain rfl := Option.some.inj (hcall.symm.trans (initRegion_eq hn.lt (by rw [hl]; exact hi)))
  obtain ⟨hgs, hgz⟩ := Block.eq_of_has (by decide) hg
  -- the blocks that were there keep their tags
  have hsame : ∀ y, Visited s y → SameTags s.mem l'.mem y := by
    intro y hy
    obtain ⟨r, hdrs, hon⟩ := h.onWalk hy
    have h1 := hon.le
    have h2 := hon.inside
    have h3 := hon.size
    refine sameTags_of_bytes (by omega) fun z hz => hframe z (fun hgz => ?_) fun c hc => h.tag_not_link hy hz hc
    exact hn.apart r hon.region z ⟨by omega, by omega⟩ ((hg z).mp hgz)
  have hold : ∀ r ∈ s.regions, ∀ hdrs, Walk s.mem r.limit r.base hdrs r.limit →
      Walk l'.mem r.limit r.base hdrs r.limit := fun r hr hdrs hwalk =>
    hwalk.sameTags (h.bounds r hr).2.2.2 (h.base_even hr) fun y hy => hsame y ⟨r, hr, hdrs, hwalk, hy⟩
  -- the new block fills its region
  have hnew : Walk l'.mem (virt + regionSize) virt [virt] (virt + regionSize) := by
    have hwalk := (hwf.tagged g (Or.inl rfl)).walk (hwf.bounds (Or.inl rfl)).2
    rwa [Block.stop, hgs, hgz] at hwalk
  have hvisited : ∀ x, Visited (s1.withList l') x ↔ x = virt ∨ Visited s x := by
    intro x
    unfold Visited
    rw [withList_regions, withList_mem, hr]
    constructor
    · rintro ⟨r, hrm, hdrs, hwalk, hmem⟩
      rcases List.mem_append.mp hrm with hrm | hrm
      · obtain ⟨hdrs', hwalk'⟩ := h.walk r hrm
        rw [walk_unique hwalk (hold r hrm hdrs' hwalk')] at hmem
        exact Or.inr ⟨r, hrm, hdrs', hwalk', hmem⟩
      · rw [List.mem_singleton.mp hrm] at hwalk
        rw [walk_unique hwalk hnew] at hmem
        exact Or.inl (List.mem_singleton.mp hmem)
    · rintro (rfl | ⟨r, hrm, hdrs, hwalk, hmem⟩)
      · exact ⟨_, List.mem_append_right _ List.mem_cons_self, [x], hnew, List.mem_cons_self⟩
      · exact ⟨r, List.mem_append_left _ hrm, hdrs, hold r hrm hdrs hwalk, hmem⟩
  have hok := hwf.regions
  refine ⟨by rw [withList_regions, hr]; exact hok.count, fun r hrm => ?_, fun r hrm q hqm x hrx hqx => ?_, fun r hrm => ?_, ?_⟩
  · rw [withList_regions, hr] at hrm
    obtain ⟨h1, h2, h3⟩ := hok.bounds r hrm
    exact ⟨h1, h2, hok.limit r hrm, h3⟩
  · rw [withList_regions, hr] at hrm hqm
    rcases List.mem_append.mp hrm with hrm | hrm <;> rcases List.mem_append.mp hqm with hqm | hqm
    · exact h.apart r hrm q hqm x hrx hqx
    · rw [List.mem_singleton.mp hqm] at hqx
      exact absurd hqx (hn.apart r hrm x hrx)
    · rw [List.mem_singleton.mp hrm] at hrx
      exact absurd hrx (hn.apart q hqm x hqx)
    · rw [List.mem_singleton.mp hrm, List.mem_singleton.mp hqm]
  · rw [withList_regions, hr] at hrm
    rcases List.mem_append.mp hrm with hrm | hrm
    · obtain ⟨hdrs, hwalk⟩ := h.walk r hrm
      exact ⟨hdrs, hold r hrm hdrs hwalk⟩
    · rw [List.mem_singleton.mp hrm]
      exact ⟨[virt], hnew⟩
  · obtain ⟨ns, h1, h2, h3⟩ := hwf.list
    refine ⟨ns, h1, h2.imp fun hab => by omega, fun n => (h3 n).trans ⟨?_, ?_⟩⟩
    · rintro ⟨b, hb, hbu, rfl⟩
      refine ⟨b.start, (hvisited _).mpr ?_, (hwf.tagged b hb).blockAllocated.trans (by rw [hbu]; rfl),
        blockPayload_start (hwf.bounds hb).2⟩
      exact hb.imp (fun hbg => by rw [hbg, hgs]) fun hb => hb.2.1
    · rintro ⟨x, hx, hfreex, rfl⟩
      rcases (hvisited x).mp hx with rfl | hx
      · exact ⟨g, Or.inl rfl, hgu, by rw [← hgs, blockPayload_start (hwf.bounds (Or.inl rfl)).2]⟩
      · obtain ⟨b, hb, rfl⟩ := h.freeBlock hx ((hsame x hx).allocated ▸ hfreex)
        exact ⟨b, Or.inr hb, hb.1, (h.payload hx).symm⟩

theorem initRegion_keeps {base : ℕ} (h : initRegionAsFreeBlock base size s = some s') :
    s'.regions = s.regions ∧ s'.env = s.env := by
  unfold initRegionAsFreeBlock at h
  split_ifs at h
  · cases h
    exact ⟨rfl, rfl⟩
  · obtain ⟨h1, h2⟩ := addToFreeList_keeps h
    exact ⟨by rw [h1, withMem_regions], by rw [h2, withMem_env]⟩

/-- What `grow_heap` can do. -/
theorem growHeap_cases (h : growHeap backing s = some (ok, s')) :
    ∃ phys env, backing.allocPages growPageCount s.env = (phys, env) ∧
      (ok = false ∧ phys = Pmm.invalidPhysicalAddress ∧ s' = { s with env := env } ∨
        ok = false ∧ phys ≠ Pmm.invalidPhysicalAddress ∧ maxRegions ≤ s.regions.length ∧
          s' = { s with env := backing.freePages phys growPageCount env } ∨
        ok = true ∧ phys ≠ Pmm.invalidPhysicalAddress ∧ s.regions.length < maxRegions ∧ s'.env = env ∧
          ∃ s₁ : State σ, s₁.list = s.list ∧ s₁.regions = s.regions ++ [⟨backing.physicalToVirtual phys,
              u64 (backing.physicalToVirtual phys + regionSize)⟩] ∧ s'.regions = s₁.regions ∧
            initRegionAsFreeBlock (backing.physicalToVirtual phys) regionSize s₁ = some s') := by
  unfold growHeap at h
  rcases hq : backing.allocPages growPageCount s.env with ⟨phys, env⟩
  rw [hq] at h
  refine ⟨phys, env, rfl, ?_⟩
  dsimp only at h
  split_ifs at h with hinvalid
  · cases h
    exact Or.inl ⟨rfl, hinvalid, rfl⟩
  · rcases Nat.lt_or_ge s.regions.length maxRegions with hlen | hlen
    · rw [tryAddRegion, if_neg (Nat.not_le.mpr hlen)] at h
      obtain ⟨s₁, hinit, heq⟩ := Option.map_eq_some_iff.mp h
      cases heq
      obtain ⟨hregions, henv⟩ := initRegion_keeps hinit
      refine Or.inr (Or.inr ⟨rfl, hinvalid, hlen, henv, _, ?_, ?_, hregions, hinit⟩)
      · rfl
      · rfl
    · rw [tryAddRegion, if_pos hlen] at h
      cases h
      exact Or.inr (Or.inl ⟨rfl, hinvalid, hlen, rfl⟩)

theorem growHeap_chain (hs : Supply backing Fresh)
    (h : BlockChain s) (hf : Fresh s.env s.regions) (hcall : growHeap backing s = some (ok, s')) :
    BlockChain s' ∧ Fresh s'.env s'.regions := by
  obtain ⟨phys, env, hq, hcases⟩ := growHeap_cases hcall
  have hfail := hs.fail _ _ hf
  have hregion := hs.region _ _ hf
  have hnext := hs.next _ _ hf
  have hback := hs.giveBack _ _ hf
  simp only [hq] at hfail hregion hnext hback
  rcases hcases with ⟨-, hinvalid, rfl⟩ | ⟨-, hvalid, -, rfl⟩ | ⟨-, hvalid, hlen, henv, s₁, hlist, hr₁, hr, hinit⟩
  · exact ⟨h.of_same rfl rfl, hfail hinvalid⟩
  · exact ⟨h.of_same rfl rfl, hback hvalid⟩
  · have hn := hregion hvalid
    rw [u64_of_lt hn.lt] at hr₁
    rw [hr, henv, hr₁]
    exact ⟨h.add_region hlen hn hr₁ hlist hinit, hnext hvalid⟩

/-- The search of `alloc` keeps the chain, and what it finds is a free block that fits. -/
theorem findBlock_chain (hs : Supply backing Fresh) {node fuel : ℕ} (h : BlockChain s) (hf : Fresh s.env s.regions)
    (hcall : findBlock backing size alignment fuel s = some (some node, s')) :
    BlockChain s' ∧ ∃ b ∈ freeBlocks s', b.node = node ∧ totalUsed b.start size alignment ≤ b.size := by
  induction fuel generalizing s with
  | zero => cases hcall
  | succ fuel ih =>
    obtain ⟨link, hr, hlink⟩ := seek_fits h.freeWf size alignment
    rw [findBlock, hr] at hcall
    dsimp only at hcall
    split_ifs at hcall with hnode
    · obtain ⟨hn, rfl⟩ := Prod.mk.inj (Option.some.inj hcall)
      obtain ⟨b, hb, -, hbn, hfit⟩ := hlink.resolve_left hnode
      exact ⟨h, b, hb, hbn.trans (Option.some.inj hn), hfit⟩
    · cases hg : growHeap backing s with
      | none => rw [hg] at hcall; cases hcall
      | some r =>
        obtain ⟨ok, s₁⟩ := r
        obtain ⟨h₁, hf₁⟩ := growHeap_chain hs h hf hg
        rw [hg] at hcall
        cases ok with
        | true => exact ih h₁ hf₁ hcall
        | false => cases hcall

/-! ### Taking a block -/

section Take

variable {b : Block} {u : Use} {total : ℕ} {l' : Store} {bs bs' : Set Block}

theorem Cut.other (h : Cut bs b u total bs') {a : Block} (ha : a ∈ bs) (hne : a ≠ b) : a ∈ bs' := by
  cases h with
  | whole => exact Or.inr (Or.inr ⟨ha, hne⟩)
  | front => exact Or.inr (Or.inr ⟨ha, hne⟩)

theorem BlockChain.sameTags (h : BlockChain s) (ht : Taken s.regions s.list l' (freeBlocks s) bs' u)
    (hcut : Cut (freeBlocks s) b u total bs') (hy : Visited s y) (hne : y ≠ b.start) : SameTags s.mem l'.mem y := by
  obtain ⟨r, hdrs, hon⟩ := h.onWalk hy
  have hsize := hon.size
  cases hfree : blockAllocated s.mem y with
  | false =>
    obtain ⟨a, ha, rfl⟩ := h.freeBlock hy hfree
    have hold := h.freeWf.tagged a ha
    have hnew := ht.change.wf.tagged a (hcut.other ha fun hab => hne (by rw [hab]))
    refine ⟨hnew.header.trans hold.header.symm, ?_⟩
    rw [← ha.2.2.1]
    exact hnew.footer.trans hold.footer.symm
  | true =>
    refine sameTags_of_bytes (by omega) fun z hz => ht.change.outside z fun c hc _ hcz => ?_
    have hstart := h.has hc hy hcz (by omega)
    have hcfree := hc.2.2.2
    rw [hstart, hfree] at hcfree
    cases hcfree

variable {c : Block}

section

variable (h : BlockChain s) (hb : b ∈ freeBlocks s) (hsame : ∀ y, Visited s y → y ≠ b.start → SameTags s.mem l'.mem y)
include h hb hsame

theorem BlockChain.carved_whole (htag : Tagged l'.mem c)
    (hstart : c.start = b.start) (hsize : c.size = b.size) (huse : c.use = some u)
    (hsmall : b.size - total < minBlockSize) : Carved (s.withList l') b.start b.size total u.ptr u.size := by
  have hwalk : ∀ r ∈ s.regions, ∀ hdrs, Walk s.mem r.limit r.base hdrs r.limit →
      Walk l'.mem r.limit r.base hdrs r.limit := by
    intro r hr hdrs hwalk
    have hlimit := (h.bounds r hr).2.2.2
    refine walk_congr hwalk fun y hy => ?_
    obtain ⟨hwf, -, -, hend⟩ := (hwalk.mem hlimit (h.base_even hr)).2 y hy
    by_cases hyb : y = b.start
    · subst hyb
      rw [← hb.2.2.1] at hend ⊢
      have hwf' := htag.wellFormed (by rw [Block.stop, hstart, hsize]; exact hend) hlimit
      have hsize' := htag.blockSize
      rw [hstart] at hwf' hsize'
      exact ⟨hwf', hsize'.trans hsize⟩
    · have htags := hsame y ⟨r, hr, hdrs, hwalk, hy⟩ hyb
      exact hwf.congr hlimit htags.1 htags.2
  obtain ⟨h1, h2, -⟩ := c.use_fits u huse
  refine ⟨fun r hr => ?_, ⟨?_, ?_⟩, ?_, fun hlarge => absurd hsmall (Nat.not_lt.mpr hlarge)⟩
  · obtain ⟨hdrs, hw⟩ := h.walk r hr
    exact ⟨hdrs, hwalk r hr hdrs hw⟩
  · obtain ⟨r, hr, hdrs, hw, hmem⟩ := hb.2.1
    exact ⟨r, hr, hdrs, hwalk r hr hdrs hw, hmem⟩
  · rw [withList_mem, ← hstart, htag.blockAllocated, huse]
    rfl
  · rw [withList_mem, ← hstart, htag.blockSize]
    omega

theorem BlockChain.carved_front {g : Block} (hctag : Tagged l'.mem c)
    (hgtag : Tagged l'.mem g) (hc : c.start = b.start ∧ c.size = total ∧ c.use = some u)
    (hg : g.start = b.start + total ∧ g.size = b.size - total ∧ g.use = none)
    (hlarge : minBlockSize ≤ b.size - total) : Carved (s.withList l') b.start b.size total u.ptr u.size := by
  obtain ⟨hcs, hcz, hcu⟩ := hc
  obtain ⟨hgs, hgz, hgu⟩ := hg
  have h32 : 32 ≤ b.size - total := hlarge
  have hcsize : blockSize l'.mem b.start = total := by rw [← hcs, hctag.blockSize, hcz]
  have hgsize : blockSize l'.mem (b.start + total) = b.size - total := by rw [← hgs, hgtag.blockSize, hgz]
  have hwalk : ∀ r ∈ s.regions, ∀ hdrs, Walk s.mem r.limit r.base hdrs r.limit →
      ∃ hdrs', Walk l'.mem r.limit r.base hdrs' r.limit ∧
        (b.start ∈ hdrs → b.start ∈ hdrs' ∧ b.start + total ∈ hdrs') := by
    intro r hr hdrs hwalk
    have hlimit := (h.bounds r hr).2.2.2
    have htags : ∀ y ∈ hdrs, y ≠ b.start → SameTags s.mem l'.mem y := fun y hy =>
      hsame y ⟨r, hr, hdrs, hwalk, hy⟩
    by_cases hmem : b.start ∈ hdrs
    · have hend := ((hwalk.mem hlimit (h.base_even hr)).2 b.start hmem).2.2.2
      rw [← hb.2.2.1] at hend
      have hcwf := hctag.wellFormed (by rw [Block.stop, hcs, hcz]; omega) hlimit
      have hgwf := hgtag.wellFormed (by rw [Block.stop, hgs, hgz]; omega) hlimit
      rw [hcs] at hcwf
      rw [hgs] at hgwf
      obtain ⟨A, C, rfl⟩ := List.append_of_mem hmem
      exact ⟨A ++ b.start :: (b.start + total) :: C, hwalk.cut hlimit (h.base_even hr) htags hcwf hgwf (by rw [hcsize])
        (by rw [hgsize, ← hb.2.2.1]; omega), fun _ => by simp⟩
    · exact ⟨hdrs, hwalk.sameTags hlimit (h.base_even hr) fun y hy => htags y hy fun heq => hmem (heq ▸ hy),
        fun hin => absurd hin hmem⟩
  obtain ⟨r, hr, hdrs, hw, hmem⟩ := hb.2.1
  obtain ⟨hdrs', hw', hin⟩ := hwalk r hr hdrs hw
  obtain ⟨h1, h2, -⟩ := c.use_fits u hcu
  refine ⟨fun r hr => ?_, ⟨⟨r, hr, hdrs', hw', (hin hmem).1⟩, ?_⟩, ?_, fun _ => ⟨⟨r, hr, hdrs', hw', (hin hmem).2⟩, ?_, hgsize⟩⟩
  · obtain ⟨hdrs, hw⟩ := h.walk r hr
    obtain ⟨hdrs', hw', -⟩ := hwalk r hr hdrs hw
    exact ⟨hdrs', hw'⟩
  · rw [withList_mem, ← hcs, hctag.blockAllocated, hcu]
    rfl
  · rw [withList_mem, ← hcs, hctag.blockSize]
    omega
  · rw [withList_mem, ← hgs, hgtag.blockAllocated, hgu]
    rfl

end

/-- Handing a block out, or an even part of it, keeps the walks. -/
theorem BlockChain.carved (h : BlockChain s) (hb : b ∈ freeBlocks s)
    (ht : Taken s.regions s.list l' (freeBlocks s) bs' u) (hcut : Cut (freeBlocks s) b u total bs') :
    Carved (s.withList l') b.start b.size total u.ptr u.size := by
  have hsame : ∀ y, Visited s y → y ≠ b.start → SameTags s.mem l'.mem y := fun y => h.sameTags ht hcut
  have htagged := ht.change.wf.tagged
  cases hcut with
  | whole hsmall hstart hsize huse =>
    exact h.carved_whole hb hsame (htagged _ (Or.inl rfl)) hstart hsize huse hsmall
  | front hlarge hc hg =>
    exact h.carved_front hb hsame (htagged _ (Or.inl rfl)) (htagged _ (Or.inr (Or.inl rfl))) hc hg hlarge

end Take

theorem alloc_taken {p : ℕ} (hsize : size ≠ 0)
    (hcall : alloc backing size alignment s = some (p, s')) (hp : p ≠ 0) :
    ∃ node s₁, findBlock backing size (atLeast8 alignment) (maxRegions + 1) s = some (some node, s₁) ∧
      takeBlock size (atLeast8 alignment) node s₁ = some (p, s') := by
  rw [alloc, if_neg hsize] at hcall
  cases hr : findBlock backing size (atLeast8 alignment) (maxRegions + 1) s with
  | none => rw [hr] at hcall; cases hcall
  | some r =>
    obtain ⟨node, s₁⟩ := r
    rw [hr] at hcall
    cases node with
    | none => exact absurd (congrArg Prod.fst (Option.some.inj hcall)).symm hp
    | some node => exact ⟨node, s₁, rfl, hcall⟩

/-- A block on a walk of the heap ends below `2 ^ 64`. -/
theorem BlockChain.visited_lt (h : BlockChain s) (hr : s'.regions = s.regions) (hx : Visited s' x) :
    x + blockSize s'.mem x < 2 ^ 64 := by
  obtain ⟨r, hrm, hdrs, hwalk, hmem⟩ := hx
  rw [hr] at hrm
  have hlimit := (h.bounds r hrm).2.2.2
  have hend := ((hwalk.mem hlimit (h.base_even hrm)).2 x hmem).2.2.2
  omega

/-- After a request that is cut off after an odd number of bytes the remainder is not marked free. -/
theorem BlockChain.odd_not_carved {k : ℕ} (h : BlockChain s) (hb : b ∈ freeBlocks s)
    (hk : k ≤ 63) (hp : userPtr b.start (2 ^ k) ≠ 0) (hno : userPtr b.start (2 ^ k) - b.start + size + 8 < 2 ^ 64)
    (hodd : totalUsed b.start size (2 ^ k) % 2 = 1) (hfit : totalUsed b.start size (2 ^ k) ≤ b.size)
    (hlarge : minBlockSize ≤ b.size - totalUsed b.start size (2 ^ k))
    (hcall : takeBlock size (2 ^ k) b.node s = some (userPtr b.start (2 ^ k), s')) :
    ¬Carved s' b.start b.size (totalUsed b.start size (2 ^ k)) (userPtr b.start (2 ^ k)) size := by
  obtain ⟨s'', A, B, htake, ht⟩ := takeBlock_odd h.freeWf hb hb.1 hk hp hno hodd hfit hlarge
  obtain ⟨-, rfl⟩ := Prod.mk.inj (Option.some.inj (htake.symm.trans hcall))
  intro hc
  have hmarked := (hc.remainder hlarge).2.1
  rw [blockAllocated, and_allocatedFlag, ht.rest, decide_eq_false_iff_not] at hmarked
  have hbsize := b.size_even
  omega

/-- For every chain of blocks and every request that is answered: `alloc` keeps the chain, holds the request in a block
marked allocated and records the remainder as it is, if and only if `total_used` has not wrapped and the block is not
cut after an odd number of bytes. -/
theorem alloc_carves_iff {backing : Backing σ} {Fresh : σ → List HeapRegion → Prop} (hs : Supply backing Fresh)
    {s s' : State σ} (h : BlockChain s) (hf : Fresh s.env s.regions) {size j p : ℕ} (hsize : 1 ≤ size) (hj : j ≤ 63)
    (hcall : alloc backing size (2 ^ j) s = some (p, s')) (hp : p ≠ 0) :
    ∃ node s₁, findBlock backing size (atLeast8 (2 ^ j)) (maxRegions + 1) s = some (some node, s₁) ∧
      (Carved s' (blockHeader node) (blockSize s₁.mem (blockHeader node))
          (totalUsed (blockHeader node) size (atLeast8 (2 ^ j))) p size ↔
        p - blockHeader node + size + 8 < 2 ^ 64 ∧
          (totalUsed (blockHeader node) size (atLeast8 (2 ^ j)) % 2 = 0 ∨
            blockSize s₁.mem (blockHeader node) - totalUsed (blockHeader node) size (atLeast8 (2 ^ j)) < minBlockSize)) := by
  obtain ⟨node, s₁, hfind, htake⟩ := alloc_taken (by omega) hcall hp
  refine ⟨node, s₁, hfind, ?_⟩
  obtain ⟨h₁, b, hb, rfl, hfit⟩ := findBlock_chain hs h hf hfind
  have hlt := (h₁.freeWf.bounds hb).2
  obtain ⟨rfl, hregions, -⟩ := takeBlock_result htake
  rw [blockHeader_node hlt] at hp htake ⊢
  rw [← hb.2.2.1]
  rw [atLeast8_pow] at hp hfit htake ⊢
  have hk : max j 3 ≤ 63 := by omega
  constructor
  · intro hc
    have hno : userPtr b.start (2 ^ max j 3) - b.start + size + 8 < 2 ^ 64 := by
      have hend := h₁.visited_lt hregions hc.block.1
      obtain ⟨hbelow, hroom⟩ := hc.room
      obtain ⟨r, hdrs, hon⟩ := h₁.onWalk hb.2.1
      obtain ⟨hpage, hpos, -⟩ := h₁.bounds r hon.region
      have hle := hon.le
      unfold Pmm.pageSize at hpage
      omega
    refine ⟨hno, or_iff_not_imp_left.mpr fun hodd => Nat.lt_of_not_le fun hlarge => ?_⟩
    exact h₁.odd_not_carved hb hk hp hno (by omega) hfit hlarge htake hc
  · rintro ⟨hno, heven⟩
    obtain ⟨l', bs', htake', ht, hcut⟩ := takeBlock_spec h₁.freeWf hb hb.1 hk (dvd_refl _) hp hno hfit heven
    obtain ⟨-, rfl⟩ := Prod.mk.inj (Option.some.inj (htake'.symm.trans htake))
    exact h₁.carved hb ht hcut

theorem chain_init (mem : Mem) (env : σ) : BlockChain (init mem env) :=
  ⟨by simp [init], by simp [init], by simp [init], by simp [init], [], rfl, List.Pairwise.nil, by simp [Visited, init]⟩

def emptyHeap : State (List ℕ) := init (fun _ => 0) [65536]

/-- A first request of 256 bytes. -/
theorem alloc_carves_first : ∃ s', alloc answering 256 (2 ^ 3) emptyHeap = some (65552, s') ∧
    Carved s' 65536 65536 280 65552 256 := by
  have hfirst : (findBlock answering 256 (atLeast8 (2 ^ 3)) (maxRegions + 1) emptyHeap).map
      (fun r => (r.1, blockSize r.2.mem 65536)) = some (some 65544, 65536) := by decide +kernel
  have hptr : (alloc answering 256 (2 ^ 3) emptyHeap).map Prod.fst = some 65552 := by decide +kernel
  obtain ⟨⟨p, s'⟩, hcall, hp⟩ := Option.map_eq_some_iff.mp hptr
  obtain rfl : p = 65552 := hp
  have hchain : BlockChain emptyHeap := chain_init _ _
  obtain ⟨node, s₁, hfind, hiff⟩ := alloc_carves_iff supply_answering hchain
    (Or.inr ⟨newRegion_example, trivial⟩) (by decide) (by decide) hcall (by decide)
  rw [hfind, Option.map_some, Option.some.injEq, Prod.mk.injEq, Option.some.injEq] at hfirst
  obtain ⟨rfl, hbsize⟩ := hfirst
  have hhdr : blockHeader 65544 = 65536 := by decide
  have htotal : totalUsed 65536 256 (atLeast8 (2 ^ 3)) = 280 := by decide
  rw [hhdr, hbsize, htotal] at hiff
  exact ⟨s', hcall, hiff.mpr (by decide)⟩

/-- An entry of `build_merged_list` has 257 bytes: the block is cut after 281, and the remainder is marked allocated. -/
theorem alloc_cuts_odd : BlockChain emptyHeap ∧ ∃ s₁ s',
    findBlock answering 257 (atLeast8 (2 ^ 3)) (maxRegions + 1) emptyHeap = some (some 65544, s₁) ∧
    alloc answering 257 (2 ^ 3) emptyHeap = some (65552, s') ∧
    ¬Carved s' 65536 (blockSize s₁.mem 65536) (totalUsed 65536 257 (atLeast8 (2 ^ 3))) 65552 257 := by
  have hfirst : (findBlock answering 257 (atLeast8 (2 ^ 3)) (maxRegions + 1) emptyHeap).map
      (fun r => (r.1, blockSize r.2.mem 65536)) = some (some 65544, 65536) := by decide +kernel
  have hmarked : (alloc answering 257 (2 ^ 3) emptyHeap).map (fun r => (r.1, blockAllocated r.2.mem (65536 + 281))) =
      some (65552, true) := by decide +kernel
  obtain ⟨⟨node, s₁⟩, hfind, hnode⟩ := Option.map_eq_some_iff.mp hfirst
  obtain ⟨⟨p, s'⟩, hcall, hp⟩ := Option.map_eq_some_iff.mp hmarked
  obtain ⟨rfl, hbsize⟩ := Prod.mk.inj hnode
  obtain ⟨rfl, hflag⟩ := Prod.mk.inj hp
  have htotal : totalUsed 65536 257 (atLeast8 (2 ^ 3)) = 281 := by decide
  refine ⟨chain_init _ _, s₁, s', hfind, hcall, fun hc => ?_⟩
  rw [hbsize, htotal] at hc
  have hfree := (hc.remainder (by decide)).2.1
  rw [hflag] at hfree
  cases hfree

end Tori.Heap
