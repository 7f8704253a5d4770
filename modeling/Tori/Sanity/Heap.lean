import Tori.Spec.HeapRun

/-! Blocks with boundary tags. `Wf rs l bs` says that the blocks of `bs` lie in the regions
and carry their tags in memory, and that the free list holds exactly the free ones; it does
not ask that they fill the regions, so an operation can take a block out, rewrite its bytes
and put other blocks back. -/

namespace Tori.Heap

open Word Linked

namespace Block

theorem min_le (b : Block) : 32 ≤ b.size := b.size_min

variable {b : Block} {x : ℕ}

theorem Tag.has (h : b.Tag x) : b.Has x := by
  have := b.min_le
  unfold Has stop
  rcases h with h | h | ⟨u, hu, h⟩
  · omega
  · unfold stop at h
    omega
  · have := b.use_fits u hu
    omega

theorem Link.has (h : b.Link x) : b.Has x := by
  obtain ⟨-, h⟩ := h
  have := b.min_le
  unfold Has stop
  unfold node at h
  omega

theorem Tag.not_link (h : b.Tag x) : ¬ b.Link x := by
  rintro ⟨hnone, hl⟩
  have := b.min_le
  unfold node at hl
  rcases h with h | h | ⟨u, hu, h⟩
  · omega
  · unfold stop at h
    omega
  · simp [hnone] at hu

theorem apart {a : Block} (h : ∀ x, a.Has x → ¬ b.Has x) :
    a.stop ≤ b.start ∨ b.stop ≤ a.start := by
  have ha := a.min_le
  have hb := b.min_le
  have h1 := h (max a.start b.start)
  unfold Has stop at *
  omega

theorem eq_of_has {g : Block} {start size : ℕ} (hsize : 0 < size) (h : ∀ x, g.Has x ↔ start ≤ x ∧ x < start + size) :
    g.start = start ∧ g.size = size := by
  have h1 := g.min_le
  have h2 := (h g.start).mp ⟨le_rfl, by unfold stop; omega⟩
  have h3 := (h start).mpr ⟨le_rfl, by omega⟩
  have h4 := (h (g.stop - 1)).mp ⟨by unfold stop; omega, by unfold stop; omega⟩
  have h5 := (h (start + size - 1)).mpr ⟨by omega, by omega⟩
  unfold Has stop at *
  omega

end Block

structure Tagged (m : Mem) (b : Block) : Prop where
  header : m.load64 b.start = b.size + b.flag
  footer : m.load64 (b.stop - 8) = b.size + b.flag
  shift : ∀ u ∈ b.use, m.load64 (u.ptr - 8) = u.ptr - b.node

variable {b : Block} {m : Mem} {size : ℕ} {rs : List HeapRegion}

theorem Tagged.congr {m' : Mem} (h : Tagged m b)
    (hm : ∀ x, b.Tag x → m' x = m x) : Tagged m' b := by
  have hb := b.min_le
  refine ⟨?_, ?_, fun u hu => ?_⟩
  · rw [← h.header]
    exact Mem.load64_congr fun x h1 h2 => hm x (Or.inl ⟨h1, h2⟩)
  · rw [← h.footer]
    refine Mem.load64_congr fun x h1 h2 => hm x (Or.inr (Or.inl ⟨h1, ?_⟩))
    unfold Block.stop at *
    omega
  · rw [← h.shift u hu]
    have := b.use_fits u hu
    exact Mem.load64_congr fun x h1 h2 => hm x (Or.inr (Or.inr ⟨u, hu, h1, by omega⟩))

theorem Tagged.of_free {g : Block} (hg : g.use = none) (hh : m.load64 g.start = g.size)
    (hf : m.load64 (g.stop - 8) = g.size) : Tagged m g := by
  have hflag : g.flag = 0 := by simp [Block.flag, hg]
  exact ⟨by rw [hh, hflag, Nat.add_zero], by rw [hf, hflag, Nat.add_zero], by simp [hg]⟩

theorem and_sizeMask {w : ℕ} (hw : w < 2 ^ 64) : w &&& sizeMask = w / 2 * 2 :=
  and_mask w 1 hw (by decide)

theorem and_allocatedFlag (w : ℕ) : (w &&& allocatedFlag != 0) = decide (w % 2 = 1) := by
  rw [allocatedFlag, Nat.and_one_is_mod]
  rcases Nat.mod_two_eq_zero_or_one w with h | h <;> simp [h]

theorem or_allocatedFlag (hs : size % 2 = 0) (a : Bool) :
    (size ||| if a then allocatedFlag else 0) = size + a.toNat := by
  cases a with
  | false => simp
  | true =>
    obtain ⟨k, rfl⟩ : ∃ k, size = 2 * k := ⟨size / 2, by omega⟩
    have := Nat.two_pow_add_eq_or_of_lt (i := 1) (b := 1) (by decide) k
    simpa [allocatedFlag] using this.symm

theorem Tagged.blockSize (h : Tagged m b) : blockSize m b.start = b.size := by
  have hb := b.size_even
  have hlt := m.load64_lt b.start
  rw [Heap.blockSize, and_sizeMask hlt, h.header]
  unfold Block.flag
  split_ifs <;> omega

theorem Tagged.footerSize (h : Tagged m b) :
    m.load64 (b.stop - 8) &&& sizeMask = b.size := by
  rw [h.footer, ← h.header]
  exact h.blockSize

theorem Tagged.blockAllocated (h : Tagged m b) :
    blockAllocated m b.start = b.use.isSome := by
  have hb := b.size_even
  rw [Heap.blockAllocated, and_allocatedFlag, h.header]
  unfold Block.flag
  cases b.use.isSome with
  | false => simp only [Bool.false_eq_true, if_false]; simp; omega
  | true => simp only [if_true]; simp; omega

/-- `set_block` writes its word at the header and where that word puts the footer. -/
theorem setBlock_word (m : Mem) (hdr : ℕ) {v : ℕ} (a : Bool) (hv : (size ||| if a then allocatedFlag else 0) = v)
    (hmin : 32 ≤ v / 2 * 2) (hle : v / 2 * 2 ≤ size) (hlt : hdr + size < 2 ^ 64) :
    (setBlock hdr size a m).load64 hdr = v ∧ (setBlock hdr size a m).load64 (hdr + v / 2 * 2 - 8) = v ∧
      ∀ x, (x < hdr ∨ hdr + size ≤ x) → setBlock hdr size a m x = m x := by
  have hw : v < 2 ^ 64 := by omega
  set m1 := m.store64 hdr v with hm1
  have h1 : m1.load64 hdr = v := Mem.load64_store64 _ _ hw
  have hfoot : blockFooter m1 hdr = hdr + v / 2 * 2 - 8 := by
    rw [blockFooter, Heap.blockSize, and_sizeMask (m1.load64_lt _), h1, sub_of_le (by omega) (by omega)]
  have hset : setBlock hdr size a m = m1.store64 (hdr + v / 2 * 2 - 8) v := by
    unfold setBlock
    rw [hv, ← hm1]
    change m1.store64 (blockFooter m1 hdr) (m1.load64 hdr) = _
    rw [hfoot, h1]
  rw [hset]
  refine ⟨?_, Mem.load64_store64 _ _ hw, fun x hx => ?_⟩
  · rw [Mem.load64_store64_apart _ (Or.inl (by omega)), h1]
  · rw [Mem.store64_outside _ (by omega), hm1, Mem.store64_outside _ (by omega)]

/-- `set_block` writes both tags and nothing else. -/
theorem setBlock_spec (m : Mem) (hdr : ℕ) (a : Bool) (heven : size % 2 = 0)
    (hmin : minBlockSize ≤ size) (hlt : hdr + size < 2 ^ 64) :
    (setBlock hdr size a m).load64 hdr = size + a.toNat ∧
      (setBlock hdr size a m).load64 (hdr + size - 8) = size + a.toNat ∧
      ∀ x, (x < hdr ∨ hdr + size ≤ x) → setBlock hdr size a m x = m x := by
  have hm : 32 ≤ size := hmin
  have ha : a.toNat ≤ 1 := Bool.toNat_le a
  have hsize : (size + a.toNat) / 2 * 2 = size := by omega
  have h := setBlock_word m hdr a (or_allocatedFlag heven a) (by omega) (by omega) hlt
  rwa [hsize] at h

/-- The free block that `set_block` tags. -/
theorem setBlock_free {start : ℕ} (hstart : start % 2 = 0) (heven : size % 2 = 0) (hmin : minBlockSize ≤ size)
    (hlt : start + size < 2 ^ 64) : ∃ g : Block, (g.start = start ∧ g.size = size ∧ g.use = none) ∧
      (∀ x, g.Has x ↔ start ≤ x ∧ x < start + size) ∧
      ∀ m, Tagged (setBlock start size false m) g ∧ ∀ x, ¬ g.Has x → setBlock start size false m x = m x := by
  refine ⟨⟨start, size, none, hstart, heven, hmin, by simp⟩, ⟨rfl, rfl, rfl⟩, fun x => Iff.rfl, fun m => ?_⟩
  obtain ⟨h1, h2, h3⟩ := setBlock_spec m start false heven hmin hlt
  rw [Bool.toNat_false, Nat.add_zero] at h1 h2
  refine ⟨Tagged.of_free rfl h1 h2, fun x hx => h3 x ?_⟩
  change ¬(start ≤ x ∧ x < start + size) at hx
  omega

section Updates

variable {σ : Type} (s : State σ) (l l' : Store) (f : Mem → Mem)

@[simp] theorem withList_list : (s.withList l).list = l := rfl

@[simp] theorem withList_mem : (s.withList l).mem = l.mem := rfl

@[simp] theorem withList_regions : (s.withList l).regions = s.regions := rfl

@[simp] theorem withList_env : (s.withList l).env = s.env := rfl

@[simp] theorem withList_withList : (s.withList l).withList l' = s.withList l' := rfl

@[simp] theorem withList_withMem : (s.withList l).withMem f = s.withList ⟨l.head, f l.mem⟩ := rfl

@[simp] theorem withMem_regions : (s.withMem f).regions = s.regions := rfl

@[simp] theorem withMem_env : (s.withMem f).env = s.env := rfl

theorem withMem_eq : s.withMem f = s.withList ⟨s.list.head, f s.list.mem⟩ := rfl

end Updates

structure RegionsOk (rs : List HeapRegion) : Prop where
  count : rs.length ≤ maxRegions
  limit : ∀ r ∈ rs, r.limit = r.base + regionSize
  bounds : ∀ r ∈ rs, r.base % Pmm.pageSize = 0 ∧ 0 < r.base ∧ r.limit < 2 ^ 64

structure Wf (rs : List HeapRegion) (l : Store) (bs : Set Block) : Prop where
  uniq : ∀ a ∈ bs, ∀ b ∈ bs, ∀ x, a.Has x → b.Has x → a = b
  tagged : ∀ b ∈ bs, Tagged l.mem b
  within : ∀ b ∈ bs, ∀ x, b.Has x → ∃ r ∈ rs, r.Has x
  regions : RegionsOk rs
  list : ∃ ns, IsList l ns ∧ Ascending ns ∧ ∀ n, n ∈ ns ↔ ∃ b ∈ bs, b.use = none ∧ b.node = n

theorem RegionsOk.card_le (h : RegionsOk rs) :
    (rs.toFinset.biUnion fun r => Finset.Ico r.base r.limit).card ≤ 16 * 65536 := by
  have hle : (rs.toFinset.biUnion fun r => Finset.Ico r.base r.limit).card ≤ rs.toFinset.card * 65536 := by
    refine Finset.card_biUnion_le_card_mul _ _ 65536 fun r hr => ?_
    rw [Nat.card_Ico, h.limit r (by simpa using hr), show regionSize = 65536 from rfl]
    omega
  exact hle.trans (Nat.mul_le_mul_right _ (rs.toFinset_card_le.trans h.count))

theorem RegionsOk.size_le (h : RegionsOk rs)
    (hw : ∀ x, b.Has x → ∃ r ∈ rs, r.Has x) : b.size ≤ 16 * 65536 := by
  have hsub : Finset.Ico b.start b.stop ⊆ rs.toFinset.biUnion fun r => Finset.Ico r.base r.limit := by
    intro x hx
    obtain ⟨r, hr, hrx⟩ := hw x (Finset.mem_Ico.mp hx)
    exact Finset.mem_biUnion.mpr ⟨r, by simpa using hr, Finset.mem_Ico.mpr hrx⟩
  have hcard := le_trans (Finset.card_le_card hsub) h.card_le
  rw [Nat.card_Ico] at hcard
  unfold Block.stop at hcard
  omega

theorem bounds_of_within (hr : RegionsOk rs)
    (h : ∀ x, b.Has x → ∃ r ∈ rs, r.Has x) : 0 < b.start ∧ b.stop < 2 ^ 64 := by
  have hb := b.min_le
  obtain ⟨r, hr1, h1⟩ := h b.start ⟨le_rfl, by unfold Block.stop; omega⟩
  obtain ⟨q, hq1, h2⟩ := h (b.stop - 1) ⟨by unfold Block.stop; omega, by unfold Block.stop; omega⟩
  have h3 := hr.bounds r hr1
  have h4 := hr.bounds q hq1
  unfold HeapRegion.Has at h1 h2
  omega

namespace Wf

variable {rs : List HeapRegion} {l : Store} {bs : Set Block}

variable {b g : Block} {m : Mem}

section

variable (h : Wf rs l bs)
include h

theorem bounds (hb : b ∈ bs) : 0 < b.start ∧ b.stop < 2 ^ 64 :=
  bounds_of_within h.regions (h.within b hb)

/-- The free blocks are at least `min_block_size` bytes each and fit the regions, so the
walks never use up their bound. -/
theorem length_lt {ns : List ℕ} (hasc : Ascending ns)
    (hl : ∀ n ∈ ns, ∃ b ∈ bs, b.use = none ∧ b.node = n) : ns.length < listFuel := by
  have hnodup : ns.Nodup := hasc.imp fun hab => by omega
  have hdisj : ∀ m ∈ ns.toFinset, ∀ n ∈ ns.toFinset, m ≠ n →
      Disjoint (Finset.Ico (m - 8) (m + 24)) (Finset.Ico (n - 8) (n + 24)) := by
    intro m hm n hn hne
    obtain ⟨a, ha, -, rfl⟩ := hl m (by simpa using hm)
    obtain ⟨b, hb, -, rfl⟩ := hl n (by simpa using hn)
    rw [Finset.disjoint_left]
    intro x hx1 hx2
    rw [Finset.mem_Ico] at hx1 hx2
    have h1 := a.min_le
    have h2 := b.min_le
    unfold Block.node at hx1 hx2
    refine hne (congrArg _ (h.uniq a ha b hb x ?_ ?_)) <;>
      (unfold Block.Has Block.stop; omega)
  have hcard : (ns.toFinset.biUnion fun n => Finset.Ico (n - 8) (n + 24)).card = ns.length * 32 := by
    rw [Finset.card_biUnion hdisj, Finset.sum_congr rfl, Finset.sum_const,
      List.toFinset_card_of_nodup hnodup, smul_eq_mul]
    intro n hn
    obtain ⟨b, hb, -, rfl⟩ := hl n (by simpa using hn)
    rw [Nat.card_Ico]
    unfold Block.node
    omega
  have hsub : (ns.toFinset.biUnion fun n => Finset.Ico (n - 8) (n + 24)) ⊆
      rs.toFinset.biUnion fun r => Finset.Ico r.base r.limit := by
    intro x hx
    obtain ⟨n, hn, hx⟩ := Finset.mem_biUnion.mp hx
    obtain ⟨b, hb, -, rfl⟩ := hl n (by simpa using hn)
    have hm := b.min_le
    rw [Finset.mem_Ico] at hx
    unfold Block.node at hx
    obtain ⟨r, hr, hrx⟩ := h.within b hb x (by unfold Block.Has Block.stop; omega)
    exact Finset.mem_biUnion.mpr ⟨r, by simpa using hr, Finset.mem_Ico.mpr hrx⟩
  have h1 := le_trans (Finset.card_le_card hsub) h.regions.card_le
  rw [hcard] at h1
  rw [show listFuel = 32769 from rfl]
  omega

theorem drop (hused : b.use ≠ none) : Wf rs l (bs \ {b}) := by
  obtain ⟨ns, h1, h2, h3⟩ := h.list
  refine ⟨fun a ha c hc => h.uniq a ha.1 c hc.1, fun a ha => h.tagged a ha.1,
    fun a ha => h.within a ha.1, h.regions, ns, h1, h2, fun n => (h3 n).trans ?_⟩
  constructor
  · rintro ⟨a, ha, hfree, hn⟩
    exact ⟨a, ⟨ha, fun he => hused (he ▸ hfree)⟩, hfree, hn⟩
  · rintro ⟨a, ha, hfree, hn⟩
    exact ⟨a, ha.1, hfree, hn⟩

theorem uniq_insert (hd : ∀ a ∈ bs, ∀ x, a.Has x → ¬ g.Has x) :
    ∀ a ∈ insert g bs, ∀ b ∈ insert g bs, ∀ x, a.Has x → b.Has x → a = b := by
  rintro a (rfl | ha) b (rfl | hb) x h1 h2
  · rfl
  · exact absurd h1 (hd b hb x h2)
  · exact absurd h2 (hd a ha x h1)
  · exact h.uniq a ha b hb x h1 h2

theorem add (hused : g.use ≠ none) (ht : Tagged l.mem g)
    (hd : ∀ a ∈ bs, ∀ x, a.Has x → ¬ g.Has x) (hw : ∀ x, g.Has x → ∃ r ∈ rs, r.Has x) :
    Wf rs l (insert g bs) := by
  obtain ⟨ns, h1, h2, h3⟩ := h.list
  refine ⟨h.uniq_insert hd, ?_, ?_, h.regions, ns, h1, h2, fun n => (h3 n).trans ?_⟩
  · rintro a (rfl | ha)
    · exact ht
    · exact h.tagged a ha
  · rintro a (rfl | ha)
    · exact hw
    · exact h.within a ha
  · constructor
    · rintro ⟨a, ha, hfree, hn⟩
      exact ⟨a, Or.inr ha, hfree, hn⟩
    · rintro ⟨a, rfl | ha, hfree, hn⟩
      · exact absurd hfree hused
      · exact ⟨a, ha, hfree, hn⟩

/-- Only the tags and the nodes matter. -/
theorem frame (hf : ∀ b ∈ bs, ∀ x, b.Tag x ∨ b.Link x → m x = l.mem x) : Wf rs ⟨l.head, m⟩ bs := by
  obtain ⟨ns, h1, h2, h3⟩ := h.list
  refine ⟨h.uniq, fun b hb => (h.tagged b hb).congr fun x hx => hf b hb x (Or.inl hx), h.within,
    h.regions, ns, seg_congr (fun n hn => ?_) h1, h2, h3⟩
  obtain ⟨b, hb, hfree, rfl⟩ := (h3 n).mp hn
  exact Mem.load64_congr fun x hx1 hx2 => hf b hb x (Or.inr ⟨hfree, hx1, hx2⟩)

theorem frame_outside (hf : ∀ b ∈ bs, ∀ x, b.Has x → m x = l.mem x) : Wf rs ⟨l.head, m⟩ bs :=
  h.frame fun b hb x hx => hf b hb x (hx.elim Block.Tag.has Block.Link.has)

/-- An allocation's own bytes are neither tags nor nodes. -/
theorem no_metadata {a : Block} {u : Use} (ha : a ∈ bs) (hu : a.use = some u) {x : ℕ}
    (h1 : u.ptr ≤ x) (h2 : x < u.ptr + u.size) : ∀ b ∈ bs, ¬ b.Tag x ∧ ¬ b.Link x := by
  intro b hb
  have hfit := a.use_fits u hu
  have hax : a.Has x := by
    unfold Block.Has Block.stop
    omega
  have htag : ¬ a.Tag x := by
    rintro (ht | ht | ⟨v, hv, ht⟩)
    · omega
    · unfold Block.stop at ht
      omega
    · obtain rfl : v = u := Option.some.inj (hv.symm.trans hu)
      omega
  constructor
  · intro ht
    exact htag (h.uniq a ha b hb x hax ht.has ▸ ht)
  · intro hl
    obtain rfl := h.uniq a ha b hb x hax hl.has
    rw [hl.1] at hu
    cases hu

/-- `remove_from_free_list` of a free block's node takes the block out. -/
theorem unlink (hb : b ∈ bs) (hfree : b.use = none) :
    ∃ l', Linked.remove listFuel b.node l = some l' ∧ Wf rs l' (bs \ {b}) ∧
      ∀ x, (∀ c ∈ bs, ¬ c.Link x) → l'.mem x = l.mem x := by
  obtain ⟨ns, h1, h2, h3⟩ := h.list
  obtain ⟨A, B, rfl⟩ := List.append_of_mem ((h3 b.node).mpr ⟨b, hb, hfree, rfl⟩)
  obtain ⟨l', hr, hl', hframe⟩ := h1.remove h2 (h.length_lt h2 fun n hn => (h3 n).mp hn)
  have hmem : ∀ x, (∀ c ∈ bs, ¬ c.Link x) → l'.mem x = l.mem x := by
    intro x hx
    refine hframe x fun n hn => ?_
    obtain ⟨c, hc, hcf, rfl⟩ := (h3 n).mp hn
    have := hx c hc
    simp only [Block.Link, hcf, true_and] at this
    omega
  refine ⟨l', hr, ⟨fun a ha c hc => h.uniq a ha.1 c hc.1, ?_,
    fun a ha => h.within a ha.1, h.regions, A ++ B, hl', ?_, fun n => ?_⟩, hmem⟩
  · intro a ha
    refine (h.tagged a ha.1).congr fun x hx => hmem x fun c hc hl => ?_
    obtain rfl := h.uniq a ha.1 c hc x hx.has hl.has
    exact hx.not_link hl
  · exact h2.sublist ((List.sublist_cons_self _ _).append_left A)
  · have hout : b.node ∉ A ++ B := by
      rw [Ascending, List.pairwise_append, List.pairwise_cons] at h2
      intro hin
      rcases List.mem_append.mp hin with hin | hin
      · have := h2.2.2 _ hin _ List.mem_cons_self
        omega
      · have := h2.2.1.1 _ hin
        omega
    have hsplit : n ∈ A ++ b.node :: B ↔ n = b.node ∨ n ∈ A ++ B := by
      simp only [List.mem_append, List.mem_cons]
      tauto
    constructor
    · intro hn
      obtain ⟨c, hc, hcf, hcn⟩ := (h3 n).mp (hsplit.mpr (Or.inr hn))
      exact ⟨c, ⟨hc, fun he => hout (he ▸ hcn ▸ hn)⟩, hcf, hcn⟩
    · rintro ⟨c, ⟨hc, hne⟩, hcf, hcn⟩
      refine (hsplit.mp ((h3 n).mpr ⟨c, hc, hcf, hcn⟩)).resolve_left fun he => hne ?_
      have h4 := c.min_le
      have h5 := b.min_le
      rw [← hcn] at he
      unfold Block.node at he
      exact h.uniq c hc b hb c.start (by unfold Block.Has Block.stop; omega)
        (by unfold Block.Has Block.stop; omega)

/-- `add_to_free_list` puts a tagged free block back. -/
theorem link (hfree : g.use = none) (ht : Tagged l.mem g)
    (hd : ∀ a ∈ bs, ∀ x, a.Has x → ¬ g.Has x) (hw : ∀ x, g.Has x → ∃ r ∈ rs, r.Has x) :
    ∃ l', Linked.insert listFuel g.node l = some l' ∧ Wf rs l' (insert g bs) ∧
      ∀ x, (∀ c ∈ insert g bs, ¬ c.Link x) → l'.mem x = l.mem x := by
  obtain ⟨ns, h1, h2, h3⟩ := h.list
  have hg := bounds_of_within h.regions hw
  have hgm := g.min_le
  have hap : ∀ n ∈ ns, n + 8 ≤ g.node ∨ g.node + 8 ≤ n := by
    intro n hn
    obtain ⟨c, hc, -, rfl⟩ := (h3 n).mp hn
    have h4 := Block.apart (hd c hc)
    have h5 := c.min_le
    unfold Block.node
    unfold Block.stop at h4
    omega
  have hlt : ∀ n ∈ ns, n < 2 ^ 64 := by
    intro n hn
    obtain ⟨c, hc, -, rfl⟩ := (h3 n).mp hn
    have h4 := h.bounds hc
    have h5 := c.min_le
    unfold Block.node
    unfold Block.stop at h4
    omega
  have hgn : g.node ≠ 0 ∧ g.node < 2 ^ 64 := by
    unfold Block.node
    unfold Block.stop at hg
    omega
  obtain ⟨A, B, l', rfl, hr, hl', hasc, hframe⟩ := h1.insert h2
    (h.length_lt h2 fun n hn => (h3 n).mp hn) hlt (Or.inl rfl) (by decide) hgn.1 hgn.2 hap
  have hmem : ∀ x, (∀ c ∈ insert g bs, ¬ c.Link x) → l'.mem x = l.mem x := by
    intro x hx
    refine hframe x fun n hn => ?_
    obtain ⟨c, hc, hcf, rfl⟩ : ∃ c ∈ insert g bs, c.use = none ∧ c.node = n := by
      rcases List.mem_cons.mp hn with rfl | hn
      · exact ⟨g, Or.inl rfl, hfree, rfl⟩
      · obtain ⟨c, hc, hcf⟩ := (h3 n).mp hn
        exact ⟨c, Or.inr hc, hcf⟩
    have := hx c hc
    simp only [Block.Link, hcf, true_and] at this
    omega
  have huniq := h.uniq_insert hd
  refine ⟨l', hr, ⟨huniq, ?_, ?_, h.regions, A ++ g.node :: B, hl',
    hasc, fun n => ?_⟩, hmem⟩
  · intro a ha
    have hta : Tagged l.mem a := by
      rcases ha with rfl | ha
      · exact ht
      · exact h.tagged a ha
    refine hta.congr fun x hx => hmem x fun c hc hl => ?_
    obtain rfl := huniq a ha c hc x hx.has hl.has
    exact hx.not_link hl
  · rintro a (rfl | ha)
    · exact hw
    · exact h.within a ha
  · have hsplit : n ∈ A ++ g.node :: B ↔ n = g.node ∨ n ∈ A ++ B := by
      simp only [List.mem_append, List.mem_cons]
      tauto
    rw [hsplit, h3]
    constructor
    · rintro (rfl | ⟨c, hc, hcf⟩)
      · exact ⟨g, Or.inl rfl, hfree, rfl⟩
      · exact ⟨c, Or.inr hc, hcf⟩
    · rintro ⟨c, rfl | hc, hcf⟩
      · exact Or.inl hcf.2.symm
      · exact Or.inr ⟨c, hc, hcf⟩

end

end Wf

end Tori.Heap
