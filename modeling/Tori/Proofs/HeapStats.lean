import Tori.Proofs.HeapSafety
import Tori.Spec.HeapStats

/-! `heap::stats` is exact as long as every block lies in one region: the walk from the base of a region then meets the
blocks of that region and no others. `free` can merge a block with the first one of the next region, and from then on
the walk of that region begins at a header that is no longer a block's. -/

namespace Tori.Heap

open Word Linked Function

variable {σ : Type} {s : State σ} {bs bs' : Set Block} {b : Block} {r q : HeapRegion}

variable {x fuel p : ℕ} {L : List Block} {live : Live}

/-! ### Blocks inside their regions -/

def Apart (r q : HeapRegion) : Prop := ∀ x, r.Has x → ¬q.Has x

instance : Std.Symm Apart := ⟨fun _ _ h x hx hx' => h x hx' hx⟩

structure Laid (s : State σ) (bs : Set Block) : Prop where
  inside : ∀ b ∈ bs, ∃ r ∈ s.regions, r.base ≤ b.start ∧ b.stop ≤ r.limit
  apart : s.regions.Pairwise Apart
  backing : s.backingPages = growPageCount * s.regions.length

theorem Laid.region_unique (h : Laid s bs) (hr : r ∈ s.regions) (hq : q ∈ s.regions) (hrx : r.Has x)
    (hqx : q.Has x) : r = q := by
  by_contra hne
  exact h.apart.forall hr hq hne x hrx hqx

theorem Laid.grow {s' : State σ} {ok : Bool} (h : Laid s bs) (hg : Growth s s' bs ok bs') : Laid s' bs' := by
  cases hg with
  | none hregions hbacking => exact ⟨by rw [hregions]; exact h.inside, by rw [hregions]; exact h.apart,
      by rw [hregions, hbacking]; exact h.backing⟩
  | @region g hnew hfree hsize hlen hregions hbacking =>
    refine ⟨?_, ?_, ?_⟩
    · rintro b (rfl | hb)
      · exact ⟨⟨b.start, b.stop⟩, by rw [hregions]; simp, le_rfl, le_rfl⟩
      · obtain ⟨r, hr, hrest⟩ := h.inside b hb
        exact ⟨r, by rw [hregions]; exact List.mem_append_left _ hr, hrest⟩
    · rw [hregions, List.pairwise_append]
      refine ⟨h.apart, List.pairwise_singleton _ _, fun r hr q hq x hx => ?_⟩
      rw [List.mem_singleton.mp hq]
      have := hnew.apart r hr x hx
      unfold HeapRegion.Has Block.stop
      rwa [hsize]
    · have h16 : maxRegions = 16 := rfl
      rw [hbacking, hregions, h.backing, List.length_append, List.length_singleton, u64_of_lt]
      · ring
      · unfold growPageCount
        omega

theorem Laid.cut {u : Use} {total : ℕ} (h : Laid s bs) (hb : b ∈ bs) (hcut : Cut bs b u total bs') (l' : Store) :
    Laid (s.withList l') bs' := by
  obtain ⟨r, hr, h1, h2⟩ := h.inside b hb
  unfold Block.stop at h2
  refine ⟨?_, h.apart, h.backing⟩
  cases hcut with
  | whole hsmall hstart hsize huse =>
    rintro c (rfl | hc | hc)
    · exact ⟨r, hr, by omega, by unfold Block.stop; omega⟩
    · exact hc.elim
    · exact h.inside c hc.1
  | front hlarge hc hg =>
    have hmin : minBlockSize = 32 := rfl
    rintro c (rfl | rfl | hc)
    · exact ⟨r, hr, by omega, by unfold Block.stop; omega⟩
    · exact ⟨r, hr, by omega, by unfold Block.stop; omega⟩
    · exact h.inside c hc.1

theorem Laid.kept : Kept (Laid (σ := σ)) :=
  ⟨fun h hg => h.grow hg, fun _ h => ⟨h.inside, h.apart, h.backing⟩, fun l' h hb hcut => h.cut hb hcut l'⟩

/-- The free block that `free` makes lies in the region, if it does not begin in it and end in another. -/
theorem Laid.free {g : Block} (h : Laid s bs) (hb : b ∈ bs) (hsub : bs' ⊆ insert g bs) (hr : regionOf s b.start = some r)
    (hspans : Spans r bs b g) (hstays : ∀ c ∈ bs, c.use = none → c.start = b.stop → b.stop ≠ r.limit) (l' : Store) :
    Laid (s.withList l') bs' := by
  obtain ⟨hrm, hrb⟩ := regionOf_some hr
  have hinside : ∀ c ∈ bs, r.Has c.start → r.base ≤ c.start ∧ c.stop ≤ r.limit := by
    intro c hc hrc
    obtain ⟨q, hq, h1, h2⟩ := h.inside c hc
    have hcm := c.min_le
    obtain rfl := h.region_unique hq hrm ⟨h1, by unfold Block.stop at h2; omega⟩ hrc
    exact ⟨h1, h2⟩
  obtain ⟨hb1, hb2⟩ := hinside b hb hrb
  refine ⟨fun c hc => ?_, h.apart, h.backing⟩
  rcases hsub hc with rfl | hc
  · refine ⟨r, hrm, ?_, ?_⟩
    · rcases hspans.front with hfront | ⟨a, -, -, hstart, hbase⟩
      · omega
      · omega
    · rcases hspans.back with hback | ⟨d, hd, hdfree, hdstart, hdstop⟩
      · omega
      · have hne := hstays d hd hdfree hdstart
        have hdin := (hinside d hd ⟨by unfold Block.stop at *; omega, by omega⟩).2
        omega
  · exact h.inside c hc

/-! ### The walk -/

def usedBlocks (L : List Block) : List Block := L.filter fun b => b.use.isSome

def freeBlocksOf (L : List Block) : List Block := L.filter fun b => b.use.isNone

def bytes (L : List Block) : ℕ := (L.map Block.size).sum

theorem bytes_append (L L' : List Block) : bytes (L ++ L') = bytes L + bytes L' := by
  simp [bytes]

theorem bytes_used_free (L : List Block) : bytes (usedBlocks L) + bytes (freeBlocksOf L) = bytes L := by
  induction L with
  | nil => rfl
  | cons b L ih =>
    unfold usedBlocks freeBlocksOf bytes at *
    cases h : b.use with
    | none => simp [h]; omega
    | some u => simp [h]; omega

theorem length_le_bytes (L : List Block) : L.length ≤ bytes L := by
  have := List.length_le_sum_of_one_le (L.map Block.size) (by
    intro n hn
    obtain ⟨b, -, rfl⟩ := List.mem_map.mp hn
    exact le_trans (by decide) b.min_le)
  rwa [List.length_map] at this

/-- The counters after the blocks of the list. -/
def Stats.after (st : Stats) (L : List Block) : Stats :=
  { st with
    totalBytes := u64 (st.totalBytes + bytes L)
    usedBytes := u64 (st.usedBytes + bytes (usedBlocks L))
    freeBytes := u64 (st.freeBytes + bytes (freeBlocksOf L))
    freeBlocks := u64 (st.freeBlocks + (freeBlocksOf L).length) }

theorem u64_u64_add (x y : ℕ) : u64 (u64 x + y) = u64 (x + y) := by
  unfold u64
  omega

theorem Stats.after_countBlock {m : Mem} (st : Stats) (L : List Block) (h : Tagged m b) :
    (st.after L).countBlock m b.start = st.after (L ++ [b]) := by
  unfold countBlock
  rw [h.blockSize, h.blockAllocated]
  cases hu : b.use with
  | none => simp [after, usedBlocks, freeBlocksOf, bytes, hu, u64_u64_add, Nat.add_assoc, inc]
  | some u => simp [after, usedBlocks, freeBlocksOf, bytes, hu, u64_u64_add, Nat.add_assoc]

theorem HeapAt.walk (h : HeapAt s bs) (hl : Laid s bs) (hr : r ∈ s.regions) (st : Stats) {fuel x : ℕ} (L₀ : List Block)
    (hfuel : r.limit - x < 32 * fuel) (hbase : r.base ≤ x) (hlimit : x ≤ r.limit)
    (hcut : ∀ b ∈ bs, b.stop ≤ x ∨ x ≤ b.start) :
    ∃ L, countRegion s.mem r.limit fuel x (st.after L₀) = some (st.after (L₀ ++ L)) ∧ L.Nodup ∧
      (∀ b, b ∈ L ↔ b ∈ bs ∧ x ≤ b.start ∧ b.start < r.limit) ∧ bytes L = r.limit - x := by
  induction fuel generalizing x L₀ with
  | zero => omega
  | succ fuel ih =>
    rw [countRegion]
    rcases Nat.lt_or_ge x r.limit with hlt | hend
    · rw [if_pos hlt]
      obtain ⟨b, hb, hbx⟩ := (h.tiles x).mp ⟨r, hr, hbase, hlt⟩
      have hmin := b.min_le
      have hstart : b.start = x := by
        have := hcut b hb
        unfold Block.Has at hbx
        omega
      obtain ⟨q, hq, hq1, hq2⟩ := hl.inside b hb
      obtain rfl := hl.region_unique hr hq ⟨hbase, hlt⟩ ⟨by omega, by unfold Block.stop at hq2; omega⟩
      have htag : Tagged s.mem b := h.wf.tagged b hb
      have hnext : nextBlock s.mem x = b.stop := by
        rw [← hstart, nextBlock, htag.blockSize]
        exact u64_of_lt (h.wf.bounds hb).2
      rw [hnext, if_neg (by rw [← hstart, htag.blockSize]; omega)]
      nth_rewrite 1 [← hstart]
      rw [Stats.after_countBlock st L₀ htag]
      have hstop : b.stop = x + b.size := by rw [Block.stop, hstart]
      obtain ⟨L, hwalk, hnodup, hmem, hbytes⟩ := ih (L₀ ++ [b]) (by omega) (by omega) hq2 fun c hc => by
        by_cases hcb : c = b
        · exact Or.inl (by rw [hcb])
        · have := Block.apart fun y hy hy' => hcb (h.wf.uniq c hc b hb y hy hy')
          omega
      refine ⟨b :: L, ?_, ?_, fun c => ?_, ?_⟩
      · rw [hwalk, List.append_assoc, List.singleton_append]
      · refine List.nodup_cons.mpr ⟨fun hbL => ?_, hnodup⟩
        have := ((hmem b).mp hbL).2.1
        omega
      · rw [List.mem_cons, hmem]
        constructor
        · rintro (rfl | ⟨hc, h1, h2⟩)
          · exact ⟨hb, by omega, by omega⟩
          · exact ⟨hc, by omega, h2⟩
        · rintro ⟨hc, h1, h2⟩
          by_cases hcb : c = b
          · exact Or.inl hcb
          · have := Block.apart fun y hy hy' => hcb (h.wf.uniq c hc b hb y hy hy')
            have := c.min_le
            exact Or.inr ⟨hc, by unfold Block.stop at *; omega, h2⟩
      · have hsum : bytes (b :: L) = b.size + bytes L := by simp [bytes]
        omega
    · refine ⟨[], ?_, List.nodup_nil, fun c => ?_, ?_⟩
      · rw [if_neg (by omega), List.append_nil]
      · exact iff_of_false (by simp) (by rintro ⟨-, h1, h2⟩; omega)
      · have : bytes [] = 0 := rfl
        omega

theorem Laid.base_cut (h : Laid s bs) (hok : RegionsOk s.regions) (hr : r ∈ s.regions) :
    ∀ b ∈ bs, b.stop ≤ r.base ∨ r.base ≤ b.start := by
  intro b hb
  by_contra hno
  rw [not_or, Nat.not_le, Nat.not_le] at hno
  obtain ⟨q, hq, hq1, hq2⟩ := h.inside b hb
  have hlimit := hok.limit r hr
  have hregion : regionSize = 65536 := rfl
  obtain rfl := h.region_unique hr hq ⟨le_rfl, by omega⟩ (⟨by omega, by omega⟩ : q.Has r.base)
  omega

theorem HeapAt.walk_regions (h : HeapAt s bs) (hl : Laid s bs) (st : Stats) (hfuel : regionSize < 32 * fuel)
    (rs : List HeapRegion) (L₀ : List Block) (hrs : ∀ r ∈ rs, r ∈ s.regions) (hapart : rs.Pairwise Apart) :
    ∃ L, rs.foldlM (fun st r => countRegion s.mem r.limit fuel r.base st) (st.after L₀) = some (st.after (L₀ ++ L)) ∧
      L.Nodup ∧ (∀ b, b ∈ L ↔ b ∈ bs ∧ ∃ r ∈ rs, r.Has b.start) ∧ bytes L = regionSize * rs.length := by
  induction rs generalizing L₀ with
  | nil => exact ⟨[], by rw [List.append_nil]; rfl, List.nodup_nil, by simp, rfl⟩
  | cons r rs ih =>
    rw [List.pairwise_cons] at hapart
    have hr := hrs r List.mem_cons_self
    have hlimit := h.wf.regions.limit r hr
    obtain ⟨L₁, hwalk₁, hnodup₁, hmem₁, hbytes₁⟩ := h.walk hl hr st L₀
      (show r.limit - r.base < 32 * fuel by omega) le_rfl (by omega) (hl.base_cut h.wf.regions hr)
    obtain ⟨L₂, hwalk₂, hnodup₂, hmem₂, hbytes₂⟩ := ih (L₀ ++ L₁) (fun q hq => hrs q (List.mem_cons_of_mem _ hq)) hapart.2
    refine ⟨L₁ ++ L₂, ?_, ?_, fun b => ?_, ?_⟩
    · rw [List.foldlM_cons, hwalk₁, ← List.append_assoc]
      exact hwalk₂
    · refine hnodup₁.append hnodup₂ fun b hb₁ hb₂ => ?_
      obtain ⟨-, q, hq, hqb⟩ := (hmem₂ b).mp hb₂
      exact hapart.1 q hq b.start ((hmem₁ b).mp hb₁).2 hqb
    · rw [List.mem_append, hmem₁, hmem₂]
      constructor
      · rintro (⟨hb, hrb⟩ | ⟨hb, q, hq, hqb⟩)
        · exact ⟨hb, r, List.mem_cons_self, hrb⟩
        · exact ⟨hb, q, List.mem_cons_of_mem _ hq, hqb⟩
      · rintro ⟨hb, q, hq, hqb⟩
        rcases List.mem_cons.mp hq with rfl | hq
        · exact Or.inl ⟨hb, hqb⟩
        · exact Or.inr ⟨hb, q, hq, hqb⟩
    · rw [bytes_append, hbytes₁, hbytes₂, List.length_cons, Nat.mul_succ]
      omega

/-- The walks together meet every block once. -/
theorem HeapAt.stats_eq (h : HeapAt s bs) (hl : Laid s bs) (hfuel : regionSize < 32 * fuel) :
    ∃ L : List Block, L.Nodup ∧ (∀ b, b ∈ L ↔ b ∈ bs) ∧ bytes L = regionSize * s.regions.length ∧
      stats fuel s = some ⟨bytes L, bytes (freeBlocksOf L), bytes (usedBlocks L), (freeBlocksOf L).length, s.backingPages,
        s.failedAllocations⟩ := by
  obtain ⟨L, hwalk, hnodup, hmem, hbytes⟩ := h.walk_regions hl ⟨0, 0, 0, 0, s.backingPages, s.failedAllocations⟩ hfuel
    s.regions [] (fun _ hr => hr) hl.apart
  refine ⟨L, hnodup, fun b => ?_, hbytes, ?_⟩
  · rw [hmem]
    refine ⟨And.left, fun hb => ⟨hb, h.wf.within b hb b.start ⟨le_rfl, ?_⟩⟩⟩
    have := b.min_le
    unfold Block.stop
    omega
  · have hle : bytes L ≤ 65536 * 16 := by
      rw [hbytes]
      exact Nat.mul_le_mul_left _ h.wf.regions.count
    have hsum := bytes_used_free L
    have hlen := length_le_bytes (freeBlocksOf L)
    have hzero : Stats.after ⟨0, 0, 0, 0, s.backingPages, s.failedAllocations⟩ [] =
        ⟨0, 0, 0, 0, s.backingPages, s.failedAllocations⟩ := rfl
    rw [hzero, List.nil_append] at hwalk
    rw [stats, hwalk]
    unfold Stats.after
    dsimp only
    rw [u64_of_lt (by omega), u64_of_lt (by omega), u64_of_lt (by omega), u64_of_lt (by omega)]
    simp only [Nat.zero_add]

/-! ### What the numbers mean -/

theorem sum_uses {f : ℕ → ℕ} (hf : ∀ b ∈ L, ∀ u, b.use = some u → f u.ptr = b.size) :
    ((L.filterMap fun b => b.use.map Use.ptr).map f).sum = bytes (usedBlocks L) := by
  induction L with
  | nil => rfl
  | cons b L ih =>
    have hrest := ih fun c hc => hf c (List.mem_cons_of_mem _ hc)
    unfold usedBlocks bytes at *
    cases h : b.use with
    | none => simpa [h] using hrest
    | some u => simpa [h, hf b List.mem_cons_self u h] using hrest

/-- The allocations without their alignments. -/
def Live.sizes (live : Live) : Live := fun p => (live p).map fun request => (request.1, 1)

theorem Live.sizes_ne_none : live.sizes p ≠ none ↔ live p ≠ none := by
  simp [Live.sizes]

theorem Live.sizes_update (live : Live) (p : ℕ) (request : Option (ℕ × ℕ)) :
    Live.sizes (update live p request) =
      update live.sizes p (request.map fun request => (request.1, 1)) := by
  funext q
  unfold Live.sizes
  by_cases hq : q = p
  · simp [hq]
  · simp [hq]

theorem Inv.live_ptr (h : Inv s live bs) : live p ≠ none ↔ ∃ b ∈ bs, ∃ u, b.use = some u ∧ u.ptr = p := by
  constructor
  · intro hp
    obtain ⟨⟨size, alignment⟩, hp⟩ := Option.ne_none_iff_exists'.mp hp
    obtain ⟨b, hb, hu⟩ := (h.live_iff p size alignment).mp hp
    exact ⟨b, hb, _, hu, rfl⟩
  · rintro ⟨b, hb, u, hu, rfl⟩
    rw [(h.live_iff u.ptr u.size u.alignment).mpr ⟨b, hb, hu⟩]
    simp

theorem HeapAt.block_eq (h : HeapAt s bs) {a c : Block} (ha : a ∈ bs) (hc : c ∈ bs) (h1 : a.Has x)
    (h2 : c.Has x) : a = c := h.wf.uniq a ha c hc x h1 h2

/-- The allocated blocks are those of the live pointers. -/
theorem Inv.used_exact (h : Inv s live bs) (hnodup : L.Nodup) (hmem : ∀ b, b ∈ L ↔ b ∈ bs) :
    ∃ ps : List ℕ, ps.Nodup ∧ (∀ p, p ∈ ps ↔ live p ≠ none) ∧
      bytes (usedBlocks L) = (ps.map fun p => blockSize s.mem (headerFromUserPtr s.mem p)).sum := by
  refine ⟨L.filterMap fun b => b.use.map Use.ptr, ?_, fun p => ?_, ?_⟩
  · rw [List.Nodup, List.pairwise_filterMap]
    refine hnodup.imp_of_mem fun {a c} ha hc hne p hap q hcq hpq => hne ?_
    obtain ⟨u, hu, rfl⟩ := Option.map_eq_some_iff.mp hap
    obtain ⟨v, hv, rfl⟩ := Option.map_eq_some_iff.mp hcq
    have h1 := a.use_fits u hu
    have h2 := c.use_fits v hv
    refine h.heap.block_eq ((hmem a).mp ha) ((hmem c).mp hc) (x := u.ptr) ?_ ?_
    · unfold Block.Has Block.stop
      omega
    · unfold Block.Has Block.stop
      omega
  · rw [h.live_ptr, List.mem_filterMap]
    constructor
    · rintro ⟨b, hb, hp⟩
      obtain ⟨u, hu, rfl⟩ := Option.map_eq_some_iff.mp hp
      exact ⟨b, (hmem b).mp hb, u, hu, rfl⟩
    · rintro ⟨b, hb, u, hu, rfl⟩
      exact ⟨b, (hmem b).mpr hb, by rw [hu]; rfl⟩
  · refine (sum_uses fun b hb u hu => ?_).symm
    rw [headerFromUserPtr_eq h.heap.wf ((hmem b).mp hb) hu]
    exact (h.heap.wf.tagged b ((hmem b).mp hb)).blockSize

theorem HeapAt.free_exact (h : HeapAt s bs) (hnodup : L.Nodup) (hmem : ∀ b, b ∈ L ↔ b ∈ bs) :
    ∃ nodes, IsList s.list nodes ∧ (freeBlocksOf L).length = nodes.length := by
  obtain ⟨ns, hlist, hasc, hns⟩ := h.wf.list
  have hns_nodup : ns.Nodup := hasc.imp fun hab => by omega
  have hnodes : ((freeBlocksOf L).map Block.node).Nodup := by
    refine List.Nodup.map_on (fun a ha c hc hac => ?_) (hnodup.filter _)
    have h1 := a.min_le
    have h2 := c.min_le
    unfold Block.node at hac
    refine h.block_eq ((hmem a).mp (List.mem_of_mem_filter ha)) ((hmem c).mp (List.mem_of_mem_filter hc)) (x := a.start)
      ?_ ?_
    · unfold Block.Has Block.stop
      omega
    · unfold Block.Has Block.stop
      omega
  have hperm : ns.Perm ((freeBlocksOf L).map Block.node) := by
    refine (List.perm_ext_iff_of_nodup hns_nodup hnodes).mpr fun n => ?_
    rw [hns, List.mem_map]
    constructor
    · rintro ⟨b, hb, hu, rfl⟩
      exact ⟨b, List.mem_filter.mpr ⟨(hmem b).mpr hb, by rw [hu]; rfl⟩, rfl⟩
    · rintro ⟨b, hb, rfl⟩
      obtain ⟨hb, hu⟩ := List.mem_filter.mp hb
      exact ⟨b, (hmem b).mp hb, Option.isNone_iff_eq_none.mp hu, rfl⟩
  exact ⟨ns, hlist, by rw [hperm.length_eq, List.length_map]⟩

theorem Inv.exact (h : Inv s live.sizes bs) (hl : Laid s bs) (hfuel : regionSize < 32 * fuel) :
    ∃ st, stats fuel s = some st ∧ Exact s live st := by
  obtain ⟨L, hnodup, hmem, hbytes, hstats⟩ := h.heap.stats_eq hl hfuel
  obtain ⟨ps, hps, hlive, hused⟩ := h.used_exact hnodup hmem
  refine ⟨_, hstats, rfl, ?_, bytes_used_free L, ⟨ps, hps, fun p => ?_, hused⟩, h.heap.free_exact hnodup hmem⟩
  · rw [hbytes, hl.backing, regionSize]
    ring
  · exact (hlive p).trans Live.sizes_ne_none

/-! ### Runs -/

/-- The invariant of a run. -/
def Settled (s : State σ) (live : Live) : Prop := ∃ bs, Inv s live.sizes bs ∧ Laid s bs

theorem settled_init (mem : Mem) : Settled (init mem ([] : List ℕ)) fun _ => none :=
  ⟨∅, inv_init mem, ⟨by simp, List.Pairwise.nil, rfl⟩⟩

theorem Settled.alloc {s s' : State (List ℕ)} {size alignment : ℕ} {answers : List ℕ} (h : Settled s live)
    (hsize : size % 8 = 0) (hs : Supplied s.regions answers)
    (hholds : size ≠ 0 → HoldsRequest answering size alignment { s with env := answers })
    (hcall : Heap.alloc answering size alignment { s with env := answers } = some (p, s')) :
    Settled s' (if p = 0 then live else update live p (some (size, alignment))) := by
  obtain ⟨bs, hinv, hl⟩ := h
  by_cases h0 : size = 0
  · rw [Heap.alloc, if_pos h0] at hcall
    cases hcall
    rw [if_pos rfl]
    exact ⟨bs, ⟨⟨hinv.heap.wf, hinv.heap.tiles⟩, hinv.live_iff⟩, hl.inside, hl.apart, hl.backing⟩
  · obtain ⟨p₁, s₁, bs₁, hr, hheap, -, hl₁, -, -, huses⟩ := alloc_at supply_answering Laid.kept
      (s := { s with env := answers }) ⟨hinv.heap.wf, hinv.heap.tiles⟩ hs ⟨hl.inside, hl.apart, hl.backing⟩ h0
      (fun _ => one_dvd _) (hholds h0) fun _ _ _ => Or.inl (by omega)
    obtain ⟨rfl, rfl⟩ := Prod.mk.inj (Option.some.inj (hr.symm.trans hcall))
    refine ⟨bs₁, ?_, hl₁⟩
    rcases huses with ⟨hp, huses⟩ | ⟨hp, huses⟩
    · rw [if_pos hp]
      exact ⟨hheap, by rw [huses]; exact hinv.live_iff⟩
    · rw [if_neg hp, Live.sizes_update]
      exact hinv.insert hheap huses

theorem Settled.free {s' : State σ} (h : Settled s live) (hp : live p ≠ none)
    (hstays : StaysInRegion p s) (hcall : Heap.free p s = some s') : Settled s' (update live p none) := by
  obtain ⟨bs, hinv, hl⟩ := h
  obtain ⟨b, hb, u, hbu, rfl⟩ := hinv.live_ptr.mp (Live.sizes_ne_none.mpr hp)
  obtain ⟨l', bs', hr, hheap, huses, ⟨g, -, -, -, hsub, r, hregion, hspans⟩, -⟩ := free_spec hinv.heap hb hbu
  obtain rfl := Option.some.inj (hr.symm.trans hcall)
  refine ⟨bs', ?_, hl.free hb hsub hregion hspans (fun c hc hfree hstart hlimit => ?_) l'⟩
  · rw [Live.sizes_update]
    exact hinv.remove hheap ⟨b, hb, hbu⟩ huses
  · -- the block that follows is free
    unfold StaysInRegion at hstays
    have hsize : blockSize s.mem b.start = b.size := (hinv.heap.wf.tagged b hb).blockSize
    have hallocated : blockAllocated s.mem c.start = c.use.isSome := (hinv.heap.wf.tagged c hc).blockAllocated
    have hnext : nextBlock s.mem b.start = b.stop := by
      rw [nextBlock, hsize]
      exact u64_of_lt (hinv.heap.wf.bounds hb).2
    rw [headerFromUserPtr_eq hinv.heap.wf hb hbu] at hstays
    have hin : (regionOf s c.start).isSome = true :=
      regionOf_isSome.mpr (hinv.heap.wf.within c hc c.start ⟨le_rfl, by have := c.min_le; unfold Block.stop; omega⟩)
    have hc' : r.limit = c.start := by omega
    have := hstays r hregion (by omega)
    rw [hc', hallocated, hfree] at this
    exact Bool.false_ne_true (this hin)

theorem Settled.store (h : Settled s live) (v : BitVec 8)
    (hx : (∃ p size alignment, live p = some (size, alignment) ∧ p ≤ x ∧ x < p + size) ∨
      ∀ r ∈ s.regions, ¬ r.Has x) : Settled (s.withMem fun m => m.store8 x v) live := by
  obtain ⟨bs, hinv, hl⟩ := h
  refine ⟨bs, hinv.store v (hx.imp_left ?_), hl.inside, hl.apart, hl.backing⟩
  rintro ⟨p, size, alignment, hp, hrest⟩
  exact ⟨p, size, 1, by rw [Live.sizes, hp]; rfl, hrest⟩

theorem settled_run {s : State (List ℕ)} (hrun : CallRun Regular s live) : Settled s live := by
  induction hrun with
  | init mem => exact settled_init mem
  | step _ hstep ih =>
    cases hstep with
    | alloc hsize _ _ hsupplied hallowed hcall => exact ih.alloc hsize hsupplied hallowed hcall
    | free hlive hallowed hcall => exact ih.free hlive hallowed hcall
    | store x v hx => exact ih.store v hx

/-- In every run whose requests are held by the blocks they get and whose frees do not merge over the end of a region,
`stats` ends and is exact. -/
theorem stats_exact {s : State (List ℕ)} {live : Live} (hrun : CallRun Regular s live) {fuel : ℕ}
    (hfuel : regionSize < minBlockSize * fuel) : ∃ st, stats fuel s = some st ∧ Exact s live st := by
  obtain ⟨bs, hinv, hl⟩ := settled_run hrun
  exact hinv.exact hl hfuel

/-- One request in one region. -/
theorem stats_exact_first : ∃ s live st, CallRun Regular s live ∧ live 65552 = some (64, 8) ∧
    stats 2049 s = some st ∧ Exact s live st := by
  have hfirst : (alloc answering 64 8 (init (fun _ => 0) [65536])).map Prod.fst = some 65552 := by decide +kernel
  obtain ⟨⟨p, s⟩, hcall, rfl⟩ := Option.map_eq_some_iff.mp hfirst
  have hs : Supplied (init (fun _ => 0) ([] : List ℕ)).regions [65536] := Or.inr ⟨newRegion_example, trivial⟩
  have hholds : HoldsRequest answering 64 8 (init (fun _ => 0) [65536]) :=
    holdsRequest_of_noWrap (j := 3) supply_answering
      ⟨(inv_init fun _ => 0).heap.wf, (inv_init fun _ => 0).heap.tiles⟩ hs (by decide) (by decide)
  have hinit : CallRun Regular (init (fun _ => 0) []) fun _ => none := .init _
  have hrun := hinit.step (.alloc (by decide) (by decide) (by decide) hs (fun _ => hholds) hcall)
  rw [if_neg (by decide)] at hrun
  obtain ⟨st, hstats, hexact⟩ := stats_exact hrun (show regionSize < minBlockSize * 2049 by decide)
  exact ⟨s, _, st, hrun, by simp, hstats, hexact⟩

/-- Two adjacent regions are added for a request that fails; the first is allocated as one block and freed. -/
def crossing : Option (ℕ × ℕ × State (List ℕ)) := do
  let (p, s) ← alloc answering 70000 8 (init (fun _ => 0) [65536, 131072])
  let (q, s) ← alloc answering 65512 8 { s with env := [] }
  let s ← free q s
  return (p, q, s)

theorem crossing_stats : (crossing.bind fun (p, q, s) => (stats 2049 s).map fun st =>
    (p, q, st.totalBytes, s.backingPages)) = some (0, 65552, 196608, 32) := by
  decide +kernel

/-- The two free blocks of 65536 bytes have become one, and its second half is counted once more. -/
theorem stats_counts_twice : ∃ s live st, CallRun (fun _ _ => True) s live ∧ stats 2049 s = some st ∧
    st.totalBytes = 196608 ∧ ¬Exact s live st := by
  obtain ⟨⟨p, q, s⟩, hcross, hrest⟩ := Option.bind_eq_some_iff.mp crossing_stats
  obtain ⟨st, hst, heq⟩ := Option.map_eq_some_iff.mp hrest
  simp only [Prod.mk.injEq] at heq
  obtain ⟨rfl, rfl, htotal, hbacking⟩ := heq
  unfold crossing at hcross
  obtain ⟨⟨p₁, s₁⟩, h₁, hcross⟩ := Option.bind_eq_some_iff.mp hcross
  obtain ⟨⟨p₂, s₂⟩, h₂, hcross⟩ := Option.bind_eq_some_iff.mp hcross
  obtain ⟨s₃, h₃, hcross⟩ := Option.bind_eq_some_iff.mp hcross
  obtain ⟨rfl, rfl, rfl⟩ : p₁ = 0 ∧ p₂ = 65552 ∧ s₃ = s := by simpa using hcross
  have hs : Supplied (init (fun _ => 0) ([] : List ℕ)).regions [65536, 131072] :=
    Or.inr ⟨newRegion_example, Or.inr ⟨⟨by decide, by decide, by decide, fun r hr x hx => ?_⟩, trivial⟩⟩
  · have hinit : CallRun (fun _ _ => True) (init (fun _ => 0) []) fun _ => none := .init _
    have hrun₁ := hinit.step (.alloc (by decide) (by decide) (by decide) hs trivial h₁)
    have hrun₂ := hrun₁.step (.alloc (by decide) (by decide) (by decide) (show Supplied s₁.regions [] from trivial) trivial h₂)
    have hrun₃ := hrun₂.step (.free (by simp) trivial h₃)
    refine ⟨s₃, _, st, hrun₃, hst, htotal, fun hexact => ?_⟩
    have := hexact.total
    rw [hexact.backing, htotal, hbacking] at this
    exact absurd this (by decide)
  · obtain rfl := List.mem_singleton.mp hr
    have hregion : regionSize = 65536 := rfl
    unfold HeapRegion.Has at hx
    dsimp only at hx
    omega

end Tori.Heap
