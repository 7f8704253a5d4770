import Tori.Proofs.HeapOps

/-! `heap::free`. Between marking its block free and putting it on the list, the block is in
limbo: tagged as a free block, but neither listed nor part of the well-formed rest. Each
coalescing step moves a listed free neighbour into it. -/

namespace Tori.Heap

open Word Linked

variable {σ : Type} {rs : List HeapRegion} {l : Store} {bs : Set Block}

variable {g b : Block} {s : State σ}

structure Limbo (rs : List HeapRegion) (l : Store) (bs : Set Block) (g : Block) : Prop where
  wf : Wf rs l bs
  free : g.use = none
  tagged : Tagged l.mem g
  apart : ∀ a ∈ bs, ∀ x, a.Has x → ¬ g.Has x
  within : ∀ x, g.Has x → ∃ r ∈ rs, r.Has x

/-- From `l`, `bs`, `g` the limbo block has grown to `g'` by free blocks of `bs`. -/
structure Merged (rs : List HeapRegion) (l : Store) (bs : Set Block) (g : Block) (l' : Store)
    (bs' : Set Block) (g' : Block) : Prop where
  limbo : Limbo rs l' bs' g'
  sub : bs' ⊆ bs
  cover : ∀ x, (g'.Has x ∨ ∃ a ∈ bs', a.Has x) ↔ g.Has x ∨ ∃ a ∈ bs, a.Has x
  grows : ∀ x, g.Has x → g'.Has x
  used : ∀ a ∈ bs, a.use ≠ none → a ∈ bs'
  kept : ∀ x, ¬ g.Has x → (∀ c ∈ bs, c.use = none → ¬ c.Has x) → ¬ g'.Has x ∧ l'.mem x = l.mem x

theorem Merged.refl (h : Limbo rs l bs g) : Merged rs l bs g l bs g :=
  ⟨h, subset_rfl, fun _ => Iff.rfl, fun _ hx => hx, fun _ ha _ => ha, fun _ hx _ => ⟨hx, rfl⟩⟩

theorem Merged.trans {l1 l2 : Store} {bs1 bs2 : Set Block} {g1 g2 : Block}
    (h1 : Merged rs l bs g l1 bs1 g1) (h2 : Merged rs l1 bs1 g1 l2 bs2 g2) :
    Merged rs l bs g l2 bs2 g2 := by
  refine ⟨h2.limbo, h2.sub.trans h1.sub, fun x => (h2.cover x).trans (h1.cover x),
    fun x hx => h2.grows x (h1.grows x hx), fun a ha hau => h2.used a (h1.used a ha hau) hau,
    fun x hx hfree => ?_⟩
  obtain ⟨h3, h4⟩ := h1.kept x hx hfree
  obtain ⟨h5, h6⟩ := h2.kept x h3 fun c hc => hfree c (h1.sub hc)
  exact ⟨h5, h6.trans h4⟩

/-- Merging with an adjacent free block; `lo` and `hi` are the two in address order. -/
theorem Limbo.merge {a lo hi : Block} (h : Limbo rs l bs g) (ha : a ∈ bs) (hau : a.use = none)
    (hor : lo = g ∧ hi = a ∨ lo = a ∧ hi = g) (hadj : lo.stop = hi.start) :
    ∃ l1 g', Linked.remove listFuel a.node l = some l1 ∧ Tagged l1.mem a ∧ Tagged l1.mem g ∧
      (g'.start = lo.start ∧ g'.size = lo.size + hi.size) ∧
      Merged rs l bs g ⟨l1.head, setBlock lo.start (lo.size + hi.size) false l1.mem⟩ (bs \ {a}) g' := by
  obtain ⟨l1, hr, hwf, hframe⟩ := h.wf.unlink ha hau
  have hga : ∀ x, g.Has x ∨ a.Has x ↔ lo.Has x ∨ hi.Has x := by
    intro x
    rcases hor with ⟨rfl, rfl⟩ | ⟨rfl, rfl⟩
    · rfl
    · exact or_comm
  have hwithin : ∀ x, lo.Has x ∨ hi.Has x → ∃ r ∈ rs, r.Has x := by
    intro x hx
    rcases (hga x).mpr hx with hx | hx
    · exact h.within x hx
    · exact h.wf.within a ha x hx
  have hlt : lo.start + (lo.size + hi.size) < 2 ^ 64 := by
    have := (bounds_of_within h.wf.regions fun x hx => hwithin x (Or.inr hx)).2
    unfold Block.stop at hadj this
    omega
  have heven : (lo.size + hi.size) % 2 = 0 := by
    have h1 := lo.size_even
    have h2 := hi.size_even
    omega
  obtain ⟨g', ⟨hgs, hgz, hgu⟩, hhas, hset⟩ :=
    setBlock_free lo.start_even heven (le_trans lo.size_min (Nat.le_add_right _ _)) hlt
  have hg' : ∀ x, g'.Has x ↔ g.Has x ∨ a.Has x := by
    intro x
    rw [hga x, hhas x]
    unfold Block.stop at hadj
    unfold Block.Has Block.stop
    omega
  have htag : Tagged l1.mem a ∧ Tagged l1.mem g := by
    constructor
    · refine (h.wf.tagged a ha).congr fun x hx => hframe x fun c hc hcl => ?_
      obtain rfl := h.wf.uniq a ha c hc x hx.has hcl.has
      exact hx.not_link hcl
    · exact h.tagged.congr fun x hx => hframe x fun c hc hcl => h.apart c hc x hcl.has hx.has
  refine ⟨l1, g', hr, htag.1, htag.2, ⟨hgs, hgz⟩, ?_⟩
  obtain ⟨htag', hm⟩ := hset l1.mem
  generalize setBlock lo.start (lo.size + hi.size) false l1.mem = m at htag' hm ⊢
  have hd : ∀ c ∈ bs \ {a}, ∀ x, c.Has x → ¬ g'.Has x := by
    intro c hc x hcx hgx
    rcases (hg' x).mp hgx with hx | hx
    · exact h.apart c hc.1 x hcx hx
    · exact hc.2 (h.wf.uniq c hc.1 a ha x hcx hx)
  refine ⟨⟨hwf.frame_outside fun c hc x hx => hm x (hd c hc x hx), hgu, htag', hd,
      fun x hx => hwithin x ((hga x).mp ((hg' x).mp hx))⟩,
    Set.sdiff_subset, fun x => ?_, fun x hx => (hg' x).mpr (Or.inl hx), fun c hc hcu => ?_,
    fun x hx hfree => ?_⟩
  · rw [hg' x]
    constructor
    · rintro ((hx | hx) | ⟨c, hc, hx⟩)
      · exact Or.inl hx
      · exact Or.inr ⟨a, ha, hx⟩
      · exact Or.inr ⟨c, hc.1, hx⟩
    · rintro (hx | ⟨c, hc, hx⟩)
      · exact Or.inl (Or.inl hx)
      · by_cases hca : c = a
        · exact Or.inl (Or.inr (hca ▸ hx))
        · exact Or.inr ⟨c, ⟨hc, hca⟩, hx⟩
  · exact ⟨hc, fun hca => hcu (hca ▸ hau)⟩
  · have hxg : ¬ g'.Has x := fun hgx => ((hg' x).mp hgx).elim hx (hfree a ha hau)
    exact ⟨hxg, (hm x hxg).trans (hframe x fun c hc hcl => hfree c hc hcl.1 hcl.has)⟩

theorem regionOf_some {x : ℕ} {r : HeapRegion} (h : regionOf s x = some r) :
    r ∈ s.regions ∧ r.Has x :=
  ⟨List.mem_of_find?_eq_some h, by simpa using List.find?_some h⟩

theorem regionOf_isSome {x : ℕ} :
    (regionOf s x).isSome = true ↔ ∃ r ∈ s.regions, r.Has x := by
  simp [regionOf, List.find?_isSome]

/-- The limbo block and the rest fill the regions. -/
def Filled (rs : List HeapRegion) (bs : Set Block) (g : Block) : Prop :=
  ∀ x, (∃ r ∈ rs, r.Has x) ↔ g.Has x ∨ ∃ a ∈ bs, a.Has x

section

variable (hrs : s.regions = rs) (hsl : s.list = l) (h : Limbo rs l bs g) (hfill : Filled rs bs g)
include hrs hsl h hfill

theorem coalesceNext_spec : ∃ l' bs' g', coalesceNext g.start g.size s = some (s.withList l') ∧ g'.start = g.start ∧
      (g'.stop = g.stop ∨ ∃ a ∈ bs, a.use = none ∧ a.start = g.stop ∧ g'.stop = a.stop) ∧
      Merged rs l bs g l' bs' g' := by
  subst hrs hsl
  have hlt := (bounds_of_within h.wf.regions h.within).2
  have hsize : blockSize s.mem g.start = g.size := h.tagged.blockSize
  have hnext : nextBlock s.mem g.start = g.stop := by
    rw [nextBlock, hsize]
    exact u64_of_lt hlt
  rw [coalesceNext, hnext]
  split_ifs with hcond
  · rw [Bool.and_eq_true, Bool.not_eq_true', regionOf_isSome] at hcond
    -- the byte after the block is in a region, hence the first byte of a block
    obtain ⟨a, ha, hax⟩ := ((hfill g.stop).mp hcond.1).resolve_left fun hg => by
      unfold Block.Has at hg; omega
    have hapart := Block.apart (h.apart a ha)
    have hadj : g.stop = a.start := by
      unfold Block.Has Block.stop at *
      omega
    have hafree : a.use = none := by
      have := (h.wf.tagged a ha).blockAllocated
      rw [hadj] at hcond
      simpa using this.symm.trans hcond.2
    have halt := (h.wf.bounds ha).2
    obtain ⟨l1, g', hr, hta, -, ⟨hgs, hgz⟩, hm⟩ := h.merge ha hafree (Or.inl ⟨rfl, rfl⟩) hadj
    refine ⟨_, _, g', ?_, hgs, Or.inr ⟨a, ha, hafree, hadj.symm, by unfold Block.stop at *; omega⟩, hm⟩
    have hsum : u64 (g.size + a.size) = g.size + a.size := by
      unfold Block.stop at *
      exact u64_of_lt (by omega)
    rewrite [hadj, blockPayload_start halt, removeFromFreeList, hr, Option.map_some, Option.bind_eq_bind,
      Option.bind_some, withList_mem, hta.blockSize, hsum, withList_withMem]
    rfl
  · exact ⟨s.list, bs, g, rfl, rfl, Or.inl rfl, Merged.refl h⟩

theorem coalescePrev_spec {r : HeapRegion} (hr : r ∈ rs) (hrg : r.Has g.start) :
    ∃ l' bs' g', coalescePrev g.start (some r) s = some (g'.start, s.withList l') ∧ g'.stop = g.stop ∧
      (g'.start = g.start ∨ ∃ a ∈ bs, a.stop = g.start ∧ g'.start = a.start ∧ r.base ≤ a.start) ∧
      Merged rs l bs g l' bs' g' := by
  subst hrs hsl
  have hlt := (bounds_of_within h.wf.regions h.within).2
  have hrb := h.wf.regions.bounds r hr
  have hg64 : g.start < 2 ^ 64 := by
    unfold Block.stop at hlt
    omega
  have hbase : u64 (r.base + 8) = r.base + 8 := by
    have hlim := h.wf.regions.limit r hr
    rw [show regionSize = 65536 from rfl] at hlim
    exact u64_of_lt (by omega)
  unfold HeapRegion.Has at hrg
  rw [coalescePrev, hbase]
  split_ifs with hcond
  · -- the byte before the block is in the region, hence the last byte of a block
    obtain ⟨h1, -, h3, h4⟩ := hcond
    obtain ⟨a, ha, hax⟩ := ((hfill (g.start - 1)).mp
      ⟨r, hr, by unfold HeapRegion.Has; omega⟩).resolve_left fun hg => by
        unfold Block.Has at hg; omega
    have hapart := Block.apart (h.apart a ha)
    have hadj : a.stop = g.start := by
      unfold Block.Has Block.stop at *
      omega
    have hfoot : s.mem.load64 (sub g.start 8) &&& sizeMask = a.size := by
      rw [sub_of_le (by omega) hg64, ← hadj]
      exact (h.wf.tagged a ha).footerSize
    have hprev : sub g.start a.size = a.start := by
      unfold Block.stop at hadj
      rw [sub_of_le (by omega) hg64]
      omega
    rw [hfoot, hprev] at h3 h4 ⊢
    have hafree : a.use = none := by
      have hal : blockAllocated s.mem a.start = a.use.isSome := (h.wf.tagged a ha).blockAllocated
      rw [hal] at h4
      simpa using h4
    obtain ⟨l1, g', hrm, hta, htg, ⟨hgs, hgz⟩, hm⟩ := h.merge ha hafree (Or.inr ⟨rfl, rfl⟩) hadj
    refine ⟨_, _, g', ?_, by unfold Block.stop at *; omega, Or.inr ⟨a, ha, hadj, hgs, h3⟩, hm⟩
    have hsum : u64 (a.size + g.size) = a.size + g.size := by
      unfold Block.stop at *
      exact u64_of_lt (by omega)
    rewrite [blockPayload_start (h.wf.bounds ha).2, removeFromFreeList, hrm, Option.map_some,
      Option.bind_eq_bind, Option.bind_some, withList_mem, hta.blockSize, htg.blockSize, hsum, withList_withMem, hgs]
    rfl
  · exact ⟨s.list, bs, g, rfl, rfl, Or.inl rfl, Merged.refl h⟩

end

theorem headerFromUserPtr_eq (h : Wf s.regions s.list bs) {u : Use}
    (hb : b ∈ bs) (hu : b.use = some u) : headerFromUserPtr s.mem u.ptr = b.start := by
  obtain ⟨h1, h2, -⟩ := b.use_fits u hu
  have hlt := (h.bounds hb).2
  have hshift : s.mem.load64 (u.ptr - 8) = u.ptr - b.node := (h.tagged b hb).shift u hu
  have hptr : u.ptr < 2 ^ 64 := by
    unfold Block.stop at hlt
    omega
  rw [headerFromUserPtr, payloadFromUserPtr, readShift, sub_of_le (show 8 ≤ u.ptr by omega) hptr,
    hshift, sub_of_le (Nat.sub_le _ _) hptr]
  unfold Block.node
  rw [show u.ptr - (u.ptr - (b.start + 8)) = b.start + 8 by omega]
  exact blockHeader_node hlt

theorem Wf.release (h : Wf rs l bs) (hb : b ∈ bs) (hu : b.use ≠ none) :
    ∃ g : Block, g.start = b.start ∧ (∀ x, g.Has x ↔ b.Has x) ∧ g.size = b.size ∧
      Limbo rs ⟨l.head, setBlock b.start b.size false l.mem⟩ (bs \ {b}) g ∧
      ∀ x, ¬ b.Has x → setBlock b.start b.size false l.mem x = l.mem x := by
  obtain ⟨g, ⟨hgs, hgz, hgu⟩, hg, hset⟩ := setBlock_free b.start_even b.size_even b.size_min (h.bounds hb).2
  obtain ⟨ht, hm⟩ := hset l.mem
  generalize setBlock b.start b.size false l.mem = m at ht hm ⊢
  have hm : ∀ x, ¬ b.Has x → m x = l.mem x := fun x hx => hm x (mt (hg x).mp hx)
  refine ⟨g, hgs, hg, hgz, ⟨?_, hgu, ht, h.disjoint_part hb fun x => (hg x).mp,
    h.within_part hb fun x => (hg x).mp⟩, hm⟩
  exact (h.drop hu).frame_outside fun a ha x hx => hm x (h.disjoint_part hb (fun _ => id) a ha x hx)

/-- The free block `g` begins and ends where `b` does, or with a neighbour of `b`, before it not below the region. -/
structure Spans (r : HeapRegion) (bs : Set Block) (b g : Block) : Prop where
  front : g.start = b.start ∨ ∃ a ∈ bs, a.stop = b.start ∧ g.start = a.start ∧ r.base ≤ a.start
  back : g.stop = b.stop ∨ ∃ c ∈ bs, c.use = none ∧ c.start = b.stop ∧ g.stop = c.stop

/-- `free` of a live pointer returns; its block is then part of a free block and no other
allocation changes. -/
theorem free_spec (h : HeapAt s bs) {u : Use} (hb : b ∈ bs)
    (hu : b.use = some u) :
    ∃ l' bs', free u.ptr s = some (s.withList l') ∧ HeapAt (s.withList l') bs' ∧
      Uses bs' = Uses bs \ {u} ∧ (∃ g ∈ bs', g.use = none ∧ (∀ x, b.Has x → g.Has x) ∧ bs' ⊆ insert g bs ∧
        ∃ r, regionOf s b.start = some r ∧ Spans r bs b g) ∧
      ∀ x, (∃ c ∈ bs, c.use ≠ none ∧ c ≠ b ∧ c.Has x) ∨ (∀ r ∈ s.regions, ¬ r.Has x) →
        l'.mem x = s.mem x := by
  obtain ⟨hp1, hp2, -⟩ := b.use_fits u hu
  have hused : b.use ≠ none := by simp [hu]
  have hregion : ∀ x, b.Has x → (regionOf s x).isSome = true :=
    fun x hx => regionOf_isSome.mpr (h.wf.within b hb x hx)
  have hcontains : contains s u.ptr = true := by
    rw [contains, hregion u.ptr (by unfold Block.Has Block.stop; omega), Bool.and_true, bne_iff_ne]
    omega
  obtain ⟨r, hr⟩ := Option.isSome_iff_exists.mp (hregion b.start (by unfold Block.Has Block.stop; omega))
  obtain ⟨hrm, hrx⟩ := regionOf_some hr
  have halloc : blockAllocated s.mem b.start = true := by
    have : blockAllocated s.mem b.start = b.use.isSome := (h.wf.tagged b hb).blockAllocated
    rw [this, hu]
    rfl
  have hsize : blockSize s.mem b.start = b.size := (h.wf.tagged b hb).blockSize
  -- the block is taken out and marked free
  obtain ⟨g, hgs, hg, hgz, hlimbo, hm0⟩ := h.wf.release hb hused
  have hs1 : s.withMem (setBlock b.start b.size false) =
      s.withList ⟨s.list.head, setBlock b.start b.size false s.list.mem⟩ := withMem_eq _ _
  rw [free, if_neg (by omega), if_neg (by simp [hcontains]), headerFromUserPtr_eq h.wf hb hu]
  dsimp only
  rw [if_neg (by simp [halloc]), hsize, hr, hs1]
  generalize setBlock b.start b.size false s.list.mem = m at hlimbo hm0 ⊢
  have hfill : Filled s.regions (bs \ {b}) g := by
    intro x
    rw [h.tiles x, hg x]
    constructor
    · rintro ⟨a, ha, hx⟩
      by_cases hab : a = b
      · exact Or.inl (hab ▸ hx)
      · exact Or.inr ⟨a, ⟨ha, hab⟩, hx⟩
    · rintro (hx | ⟨a, ha, hx⟩)
      · exact ⟨b, hb, hx⟩
      · exact ⟨a, ha.1, hx⟩
  -- both neighbours
  obtain ⟨l1, bs1, g1, hn, hgs1, hback, hm1⟩ := coalesceNext_spec (withList_regions s _)
    (withList_list s _) hlimbo hfill
  rw [hgs, hgz] at hn
  have hfill1 : Filled s.regions bs1 g1 := fun x => (hfill x).trans (hm1.cover x).symm
  obtain ⟨l2, bs2, g2, hpv, hgs2, hfront, hm2⟩ := coalescePrev_spec (withList_regions s l1) (withList_list s l1)
    hm1.limbo hfill1 hrm (by rw [hgs1, hgs]; exact hrx)
  rw [hgs1, hgs] at hpv
  have hmerged := hm1.trans hm2
  have hl := hmerged.limbo
  -- the list
  obtain ⟨l3, hi, hwf, hframe⟩ := hl.wf.link hl.free hl.tagged hl.apart hl.within
  have hcover : ∀ x, (∃ a ∈ insert g2 bs2, a.Has x) ↔ g2.Has x ∨ ∃ a ∈ bs2, a.Has x := by
    intro x
    constructor
    · rintro ⟨a, rfl | ha, hx⟩
      · exact Or.inl hx
      · exact Or.inr ⟨a, ha, hx⟩
    · rintro (hx | ⟨a, ha, hx⟩)
      · exact ⟨g2, Or.inl rfl, hx⟩
      · exact ⟨a, Or.inr ha, hx⟩
  have hstop : g.stop = b.stop := by rw [Block.stop, Block.stop, hgs, hgz]
  have hspans : Spans r bs b g2 := by
    rw [hgs1, hgs] at hfront
    rw [← hgs2, hstop] at hback
    refine ⟨hfront.imp_right ?_, hback.imp_right ?_⟩
    · rintro ⟨a, ha, hrest⟩
      exact ⟨a, (hm1.sub ha).1, hrest⟩
    · rintro ⟨c, hc, hrest⟩
      exact ⟨c, hc.1, hrest⟩
  refine ⟨l3, insert g2 bs2, ?_, ⟨hwf, fun x => ?_⟩, ?_, ⟨g2, Or.inl rfl, hl.free, fun x hx => ?_,
    Set.insert_subset_insert fun a ha => (hmerged.sub ha).1, r, rfl, hspans⟩, fun x hx => ?_⟩
  · rewrite [hn, Option.bind_eq_bind, Option.bind_some, withList_withList, hpv, Option.bind_eq_bind,
      Option.bind_some]
    rewrite [withList_withList, addToFreeList, withList_list,
      blockPayload_start (bounds_of_within hl.wf.regions hl.within).2, hi, Option.map_some]
    rfl
  · rw [withList_regions, hfill x, ← hmerged.cover x, hcover x]
  · ext v
    constructor
    · rintro ⟨a, rfl | ha, hav⟩
      · rw [hl.free] at hav
        cases hav
      · refine ⟨⟨a, (hmerged.sub ha).1, hav⟩, fun hvu => (hmerged.sub ha).2 ?_⟩
        obtain rfl : v = u := hvu
        have h1 := a.use_fits v hav
        refine h.wf.uniq a (hmerged.sub ha).1 b hb v.ptr ?_ ?_ <;>
          (unfold Block.Has Block.stop; omega)
    · rintro ⟨⟨a, ha, hav⟩, hvu⟩
      have hab : a ≠ b := by
        rintro rfl
        exact hvu (Option.some.inj (hav.symm.trans hu))
      exact ⟨a, Or.inr (hmerged.used a ⟨ha, hab⟩ (by simp [hav])), hav⟩
  · exact hmerged.grows x ((hg x).mpr hx)
  · have hbx : ¬ b.Has x := by
      rcases hx with ⟨c, hc, -, hcb, hcx⟩ | hout
      · exact fun hbx => hcb (h.wf.uniq c hc b hb x hcx hbx)
      · intro hbx
        obtain ⟨q, hq, hqx⟩ := h.wf.within b hb x hbx
        exact hout q hq hqx
    have hfree : ∀ c ∈ bs \ {b}, c.use = none → ¬ c.Has x := by
      intro c hc hcu hcx
      rcases hx with ⟨a, ha, hau, -, hax⟩ | hout
      · obtain rfl := h.wf.uniq a ha c hc.1 x hax hcx
        exact hau hcu
      · obtain ⟨q, hq, hqx⟩ := h.wf.within c hc.1 x hcx
        exact hout q hq hqx
    obtain ⟨hg2, hmem⟩ := hmerged.kept x (fun hgx => hbx ((hg x).mp hgx)) hfree
    rw [hframe x, hmem]
    · exact hm0 x hbx
    · rintro c (rfl | hc) hcl
      · exact hg2 hcl.has
      · exact hfree c (hmerged.sub hc) hcl.1 hcl.has

end Tori.Heap
