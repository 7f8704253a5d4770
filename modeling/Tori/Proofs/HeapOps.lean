import Tori.Sanity.Heap

/-! What `alloc`, `free` and `grow_heap` do to the blocks of a well-formed heap. -/

namespace Tori.Heap

open Word Linked

variable {σ : Type} {rs : List HeapRegion} {l : Store} {bs : Set Block}

variable {start k alignment size p virt : ℕ} {b : Block} {u : Use} {s s' s1 : State σ} {backing : Backing σ}
  {Fresh : σ → List HeapRegion → Prop}

/-- Where `align_up` puts the pointer, unless it wraps to zero. -/
theorem userPtr_cases (hk : k ≤ 63) (hlt : start + 16 < 2 ^ 64) :
    userPtr start (2 ^ k) = 0 ∧ 2 ^ 64 ≤ start + 16 + 2 ^ k - 1 ∨
      start + 16 ≤ userPtr start (2 ^ k) ∧ userPtr start (2 ^ k) ≤ start + 16 + 2 ^ k - 1 ∧
        userPtr start (2 ^ k) < 2 ^ 64 ∧ userPtr start (2 ^ k) % 2 ^ k = 0 := by
  have hp : userPtr start (2 ^ k) = u64 (start + 16 + 2 ^ k - 1) / 2 ^ k * 2 ^ k := by
    unfold userPtr blockPayload
    rw [alignUp_eq _ _ (by omega), u64_of_lt (x := start + 8) (by omega),
      u64_of_lt (x := start + 8 + 8) (by omega)]
  rcases Nat.lt_or_ge (start + 16 + 2 ^ k - 1) (2 ^ 64) with hno | hwrap
  · rw [u64_of_lt hno] at hp
    have h1 := Nat.div_add_mod (start + 16 + 2 ^ k - 1) (2 ^ k)
    rw [Nat.mul_comm] at h1
    have h3 : start + 16 ≤ userPtr start (2 ^ k) ∧ userPtr start (2 ^ k) ≤ start + 16 + 2 ^ k - 1 := by
      rw [hp]
      omega
    exact Or.inr ⟨h3.1, h3.2, by omega, by rw [hp]; exact Nat.mul_mod_left _ _⟩
  · have hw : u64 (start + 16 + 2 ^ k - 1) < 2 ^ k := by
      unfold u64
      omega
    rw [Nat.div_eq_of_lt hw, Nat.zero_mul] at hp
    exact Or.inl ⟨hp, hwrap⟩

theorem userPtr_spec (hk : k ≤ 63) (hlt : start + 16 < 2 ^ 64) (hp : userPtr start (2 ^ k) ≠ 0) :
    start + 16 ≤ userPtr start (2 ^ k) ∧ userPtr start (2 ^ k) < 2 ^ 64 ∧ userPtr start (2 ^ k) % 2 ^ k = 0 := by
  rcases userPtr_cases hk hlt with ⟨h0, -⟩ | ⟨h1, -, h2, h3⟩
  · exact absurd h0 hp
  · exact ⟨h1, h2, h3⟩

theorem userPtr_dvd (start : ℕ) (hk : k ≤ 63) : 2 ^ k ∣ userPtr start (2 ^ k) := by
  rw [userPtr, alignUp_eq _ _ (by omega)]
  exact Nat.dvd_mul_left _ _

theorem userPtr_even (hstart : start % 2 = 0) :
    userPtr start (atLeast8 alignment) % 2 = 0 := by
  refine alignUp_even ?_ ?_
  · unfold blockPayload u64
    omega
  · unfold atLeast8
    split_ifs <;> omega

theorem totalUsed_eq (h1 : start ≤ userPtr start alignment)
    (h2 : userPtr start alignment < 2 ^ 64) (hno : userPtr start alignment - start + size + 8 < 2 ^ 64) :
    totalUsed start size alignment = max (userPtr start alignment - start + size + 8) 32 := by
  unfold totalUsed
  rw [sub_of_le h1 h2, u64_of_lt hno]
  rfl

variable {bsize n j : ℕ} {g : Block} {P : State σ → Set Block → Prop}

section

variable (hk : k ≤ 63) (hsz : size + 2 ^ k + 24 ≤ 2 ^ 64) (hmin : 32 ≤ bsize) (hlt : start + bsize < 2 ^ 64)
  (hfit : totalUsed start size (2 ^ k) ≤ bsize)
include hk hsz hmin hlt hfit

/-- In a block that fits, the sum `total_used` has not wrapped if `size + alignment + 24` is at most `2 ^ 64`. -/
theorem noWrap_of_fits : userPtr start (2 ^ k) ≠ 0 ∧ userPtr start (2 ^ k) - start + size + 8 < 2 ^ 64 := by
  rcases userPtr_cases hk (show start + 16 < 2 ^ 64 by omega) with ⟨hp, hwrap⟩ | ⟨h1, h2, -, -⟩
  · -- `align_up` has wrapped to zero: then `total_used` is beyond the end of the block
    exfalso
    unfold totalUsed at hfit
    rw [hp] at hfit
    unfold sub u64 at hfit
    omega
  · omega

/-- The pointer `alloc` computes in a block that fits. -/
theorem totalUsed_spec : start + 16 ≤ userPtr start (2 ^ k) ∧ userPtr start (2 ^ k) % 2 ^ k = 0 ∧
      totalUsed start size (2 ^ k) = max (userPtr start (2 ^ k) - start + size + 8) 32 := by
  obtain ⟨hp, hno⟩ := noWrap_of_fits hk hsz hmin hlt hfit
  obtain ⟨h1, h2, h3⟩ := userPtr_spec hk (by omega) hp
  exact ⟨h1, h3, totalUsed_eq (by omega) h2 hno⟩

end

/-- How an operation changes the blocks. Its memory changes stay inside free blocks and
the blocks of `touched`. -/
structure Change (rs : List HeapRegion) (l l' : Store) (bs bs' touched : Set Block) : Prop where
  wf : Wf rs l' bs'
  cover : ∀ x, (∃ b ∈ bs', b.Has x) ↔ ∃ b ∈ bs, b.Has x
  outside : ∀ x, (∀ b ∈ bs, b.use = none ∨ b ∈ touched → ¬ b.Has x) → l'.mem x = l.mem x

theorem blockHeader_node (hlt : b.stop < 2 ^ 64) : blockHeader b.node = b.start := by
  have := b.min_le
  unfold Block.stop at hlt
  unfold blockHeader Block.node
  rw [sub_of_le (by omega) (by omega)]
  omega

theorem blockPayload_start (hlt : b.stop < 2 ^ 64) : blockPayload b.start = b.node := by
  have := b.min_le
  unfold Block.stop at hlt
  exact u64_of_lt (by omega)

theorem writeShift_eq (hlt : b.stop < 2 ^ 64) (h1 : b.start + 16 ≤ p)
    (h2 : p + 8 ≤ b.stop) (m : Mem) :
    writeShift p (sub p (blockPayload b.start)) m = m.store64 (p - 8) (p - b.node) := by
  unfold writeShift
  rw [blockPayload_start hlt]
  unfold Block.node
  rw [sub_of_le (by omega) (by omega), sub_of_le (by omega) (by omega)]

theorem Wf.place (h : Wf rs l bs) (hu : b.use = some u)
    (hd : ∀ a ∈ bs, ∀ x, a.Has x → ¬ b.Has x) (hw : ∀ x, b.Has x → ∃ r ∈ rs, r.Has x)
    (hh : l.mem.load64 b.start = b.size + 1) (hf : l.mem.load64 (b.stop - 8) = b.size + 1) :
    Wf rs ⟨l.head, l.mem.store64 (u.ptr - 8) (u.ptr - b.node)⟩ (insert b bs) := by
  obtain ⟨h1, h2, -⟩ := b.use_fits u hu
  have hlt := (bounds_of_within h.regions hw).2
  have hflag : b.flag = 1 := by simp [Block.flag, hu]
  have hwf : Wf rs ⟨l.head, l.mem.store64 (u.ptr - 8) (u.ptr - b.node)⟩ bs := by
    refine h.frame_outside fun a ha x hx => Mem.store64_outside _ ?_
    have := hd a ha x hx
    unfold Block.Has Block.stop at this
    omega
  unfold Block.stop at hlt hf
  refine hwf.add (by simp [hu]) ⟨?_, ?_, fun v hv => ?_⟩ hd hw
  · rw [hflag, ← hh]
    exact Mem.load64_store64_apart _ (Or.inl (by omega))
  · rw [hflag, Block.stop, ← hf]
    exact Mem.load64_store64_apart _ (Or.inr (by omega))
  · obtain rfl : v = u := by simpa [hu, eq_comm] using hv
    exact Mem.load64_store64 _ _ (by omega)

theorem Wf.disjoint_part (h : Wf rs l bs) (hb : b ∈ bs)
    (hg : ∀ x, g.Has x → b.Has x) : ∀ a ∈ bs \ {b}, ∀ x, a.Has x → ¬ g.Has x :=
  fun a ha x hx hgx => ha.2 (h.uniq a ha.1 b hb x hx (hg x hgx))

theorem Wf.within_part (h : Wf rs l bs) (hb : b ∈ bs) (hg : ∀ x, g.Has x → b.Has x) :
    ∀ x, g.Has x → ∃ r ∈ rs, r.Has x := fun x hx => h.within b hb x (hg x hx)

/-- What `alloc` guarantees when it takes a block. -/
structure Taken (rs : List HeapRegion) (l l' : Store) (bs bs' : Set Block) (u : Use) : Prop where
  change : Change rs l l' bs bs' ∅
  uses : ∀ v, (∃ c ∈ bs', c.use = some v) ↔ v = u ∨ ∃ c ∈ bs, c.use = some v

/-- The end of `alloc`: the free block `b` has become `c`, tagged but for its shift word,
and the free blocks of `gs`. -/
theorem Wf.take_finish (h : Wf rs l bs) {c : Block} {gs : Set Block} {l2 : Store}
    (hb : b ∈ bs) (hfree : b.use = none) (hu : c.use = some u) (hgs : ∀ g ∈ gs, g.use = none)
    (hparts : ∀ x, b.Has x ↔ c.Has x ∨ ∃ g ∈ gs, g.Has x)
    (hapart : ∀ g ∈ gs, ∀ x, g.Has x → ¬ c.Has x) (hwf : Wf rs l2 (gs ∪ bs \ {b}))
    (hh : l2.mem.load64 c.start = c.size + 1) (hf : l2.mem.load64 (c.stop - 8) = c.size + 1)
    (hout : ∀ x, ¬ b.Has x → (∀ a ∈ bs, ¬ a.Link x) → l2.mem x = l.mem x) :
    Taken rs l ⟨l2.head, l2.mem.store64 (u.ptr - 8) (u.ptr - c.node)⟩ bs
      (insert c (gs ∪ bs \ {b})) u := by
  have hcb : ∀ x, c.Has x → b.Has x := fun x hx => (hparts x).mpr (Or.inl hx)
  have hd : ∀ a ∈ gs ∪ bs \ {b}, ∀ x, a.Has x → ¬ c.Has x := by
    rintro a (ha | ha)
    · exact hapart a ha
    · exact h.disjoint_part hb hcb a ha
  refine ⟨⟨hwf.place hu hd (h.within_part hb hcb) hh hf, fun x => ?_, fun x hx => ?_⟩, fun v => ?_⟩
  · constructor
    · rintro ⟨a, rfl | ha | ha, hx⟩
      · exact ⟨b, hb, hcb x hx⟩
      · exact ⟨b, hb, (hparts x).mpr (Or.inr ⟨a, ha, hx⟩)⟩
      · exact ⟨a, ha.1, hx⟩
    · rintro ⟨a, ha, hx⟩
      by_cases hab : a = b
      · rcases (hparts x).mp (hab ▸ hx) with hx | ⟨g, hg, hx⟩
        · exact ⟨c, Or.inl rfl, hx⟩
        · exact ⟨g, Or.inr (Or.inl hg), hx⟩
      · exact ⟨a, Or.inr (Or.inr ⟨ha, hab⟩), hx⟩
  · have hxb := hx b hb (Or.inl hfree)
    have hxc : ¬ c.Has x := fun hxc => hxb (hcb x hxc)
    have := c.use_fits u hu
    unfold Block.Has Block.stop at hxc
    dsimp only
    rw [Mem.store64_outside _ (by omega)]
    exact hout x hxb fun a ha hl => hx a ha (Or.inl hl.1) hl.has
  · constructor
    · rintro ⟨a, rfl | ha | ha, hav⟩
      · exact Or.inl (Option.some.inj (hav.symm.trans hu))
      · rw [hgs a ha] at hav
        cases hav
      · exact Or.inr ⟨a, ha.1, hav⟩
    · rintro (rfl | ⟨a, ha, hav⟩)
      · exact ⟨c, Or.inl rfl, hu⟩
      · exact ⟨a, Or.inr (Or.inr ⟨ha, fun he => by rw [he, hfree] at hav; cases hav⟩), hav⟩

/-- The blocks after `b` has been handed out for `u`: whole, or cut after `total` bytes. -/
inductive Cut (bs : Set Block) (b : Block) (u : Use) (total : ℕ) : Set Block → Prop
  | whole {c : Block} (hsmall : b.size - total < minBlockSize) (hstart : c.start = b.start)
      (hsize : c.size = b.size) (huse : c.use = some u) : Cut bs b u total (insert c (∅ ∪ bs \ {b}))
  | front {c g : Block} (hlarge : minBlockSize ≤ b.size - total)
      (hc : c.start = b.start ∧ c.size = total ∧ c.use = some u)
      (hg : g.start = b.start + total ∧ g.size = b.size - total ∧ g.use = none) :
      Cut bs b u total (insert c ({g} ∪ bs \ {b}))

theorem Wf.take_whole (h : Wf rs l bs) (hb : b ∈ bs) (hfree : b.use = none)
    (hu : b.start + 16 ≤ u.ptr ∧ u.ptr + u.size + 8 ≤ b.start + b.size ∧ u.ptr % u.alignment = 0) :
    ∃ l1 c, Linked.remove listFuel b.node l = some l1 ∧ c.start = b.start ∧ c.size = b.size ∧ c.use = some u ∧
      Taken rs l ⟨l1.head, (setBlock b.start b.size true l1.mem).store64 (u.ptr - 8) (u.ptr - b.node)⟩
        bs (insert c (∅ ∪ bs \ {b})) u := by
  obtain ⟨l1, hr, hwf, hframe⟩ := h.unlink hb hfree
  have hlt := (h.bounds hb).2
  obtain ⟨c, hcs, hcz, hcu⟩ : ∃ c : Block, c.start = b.start ∧ c.size = b.size ∧ c.use = some u :=
    ⟨⟨b.start, b.size, some u, b.start_even, b.size_even, b.size_min, by simpa using hu⟩, rfl, rfl, rfl⟩
  have hc : ∀ x, b.Has x ↔ c.Has x := fun x => by unfold Block.Has Block.stop; rw [hcs, hcz]
  obtain ⟨h1, h2, h3⟩ := setBlock_spec l1.mem b.start true b.size_even b.size_min hlt
  rw [Bool.toNat_true] at h1 h2
  refine ⟨l1, ?_⟩
  generalize setBlock b.start b.size true l1.mem = m at h1 h2 h3 ⊢
  have hm : ∀ x, ¬ b.Has x → m x = l1.mem x := fun x hx => h3 x (by
    unfold Block.Has Block.stop at hx; omega)
  have hwf2 : Wf rs ⟨l1.head, m⟩ (∅ ∪ bs \ {b}) := by
    rw [Set.empty_union]
    exact hwf.frame_outside fun a ha x hx => hm x (h.disjoint_part hb (fun _ => id) a ha x hx)
  have htaken := h.take_finish hb hfree hcu (by simp) (by simpa using hc) (by simp) hwf2
    (by rw [hcs, hcz]; exact h1) (by rw [Block.stop, hcs, hcz]; exact h2)
    (fun x hx hl => (hm x hx).trans (hframe x hl))
  rw [show c.node = b.node from congrArg (· + 8) hcs] at htaken
  exact ⟨c, hr, hcs, hcz, hcu, htaken⟩

/-- The front of the block is handed out and the rest put back on the free list. -/
theorem Wf.take_split (h : Wf rs l bs) (hb : b ∈ bs) (hfree : b.use = none)
    {total : ℕ} (heven : total % 2 = 0) (hmin : 32 ≤ total) (hrem : 32 ≤ b.size - total)
    (hu : b.start + 16 ≤ u.ptr ∧ u.ptr + u.size + 8 ≤ b.start + total ∧ u.ptr % u.alignment = 0) :
    ∃ l1 l2 c g, Linked.remove listFuel b.node l = some l1 ∧
      Linked.insert listFuel (b.start + total + 8) ⟨l1.head, setBlock (b.start + total)
        (b.size - total) false (setBlock b.start total true l1.mem)⟩ = some l2 ∧
      (c.start = b.start ∧ c.size = total ∧ c.use = some u) ∧
      (g.start = b.start + total ∧ g.size = b.size - total ∧ g.use = none) ∧
      Taken rs l ⟨l2.head, l2.mem.store64 (u.ptr - 8) (u.ptr - b.node)⟩ bs (insert c ({g} ∪ bs \ {b})) u := by
  obtain ⟨l1, hr, hwf, hframe⟩ := h.unlink hb hfree
  have hlt := (h.bounds hb).2
  have hbe := b.size_even
  have hbs := b.start_even
  unfold Block.stop at hlt
  obtain ⟨c, hcs, hcz, hcu⟩ : ∃ c : Block, c.start = b.start ∧ c.size = total ∧ c.use = some u :=
    ⟨⟨b.start, total, some u, b.start_even, heven, hmin, by simpa using hu⟩, rfl, rfl, rfl⟩
  obtain ⟨g, ⟨hgs, hgz, hgu⟩, hg, hset⟩ := setBlock_free (show (b.start + total) % 2 = 0 by omega)
    (show (b.size - total) % 2 = 0 by omega) hrem (by omega)
  have hc : ∀ x, b.Has x ↔ c.Has x ∨ g.Has x := by
    intro x
    rw [hg x]
    unfold Block.Has Block.stop
    rw [hcs, hcz]
    omega
  have hgc : ∀ x, g.Has x → ¬ c.Has x := by
    intro x
    rw [hg x]
    unfold Block.Has Block.stop
    rw [hcs, hcz]
    omega
  obtain ⟨h1, h2, h3⟩ := setBlock_spec l1.mem b.start true heven hmin (by omega)
  rw [Bool.toNat_true] at h1 h2
  refine ⟨l1, ?_⟩
  generalize setBlock b.start total true l1.mem = m1 at h1 h2 h3 ⊢
  obtain ⟨hgt, h6⟩ := hset m1
  generalize setBlock (b.start + total) (b.size - total) false m1 = m2 at hgt h6 ⊢
  have hm : ∀ x, ¬ b.Has x → m2 x = l1.mem x := by
    intro x hx
    rw [h6 x fun hgx => hx ((hc x).mpr (Or.inr hgx))]
    unfold Block.Has Block.stop at hx
    exact h3 x (by omega)
  have hwf2 : Wf rs ⟨l1.head, m2⟩ (bs \ {b}) :=
    hwf.frame_outside fun a ha x hx => hm x (h.disjoint_part hb (fun _ => id) a ha x hx)
  have hgb : ∀ x, g.Has x → b.Has x := fun x hx => (hc x).mpr (Or.inr hx)
  obtain ⟨l2, hi, hwf3, hframe2⟩ := hwf2.link hgu hgt (h.disjoint_part hb hgb) (h.within_part hb hgb)
  rw [show g.node = b.start + total + 8 from congrArg (· + 8) hgs] at hi
  -- the tags of `c` survive the linking of `g`
  have hkeep : ∀ x, c.Has x → l2.mem x = m2 x := by
    intro x hx
    refine hframe2 x ?_
    rintro a (rfl | ha) hl
    · exact hgc x hl.has hx
    · exact h.disjoint_part hb (fun _ => id) a ha x hl.has ((hc x).mpr (Or.inl hx))
  have hkeep8 : ∀ a, c.start ≤ a → a + 8 ≤ c.stop → l2.mem.load64 a = m1.load64 a := by
    intro a ha1 ha2
    unfold Block.stop at ha2
    refine Mem.load64_congr fun x hx1 hx2 => ?_
    have hx : c.Has x := by
      unfold Block.Has Block.stop
      omega
    rw [hkeep x hx, h6 x fun hgx => hgc x hgx hx]
  have htaken := h.take_finish hb hfree hcu (by simpa using hgu : ∀ a ∈ ({g} : Set Block), a.use = none)
    (by simpa using hc) (by simpa using hgc) (by rw [Set.singleton_union]; exact hwf3 : Wf rs l2 _)
    (by rw [hkeep8 _ le_rfl (by unfold Block.stop; omega), hcs, hcz]; exact h1)
    (by rw [hkeep8 _ (by unfold Block.stop; omega) (by unfold Block.stop; omega), Block.stop, hcs, hcz]
        exact h2)
    (fun x hx hl => ?_)
  · rw [show c.node = b.node from congrArg (· + 8) hcs] at htaken
    exact ⟨l2, c, g, hr, hi, ⟨hcs, hcz, hcu⟩, ⟨hgs, hgz, hgu⟩, htaken⟩
  · rw [← hframe x hl, ← hm x hx]
    refine hframe2 x ?_
    rintro a (rfl | ha) hal
    · exact hx (hgb x hal.has)
    · exact hl a ha.1 hal

theorem removeFromFreeList_keeps (h : removeFromFreeList n s = some s') :
    s'.regions = s.regions ∧ s'.env = s.env := by
  obtain ⟨l', -, rfl⟩ := Option.map_eq_some_iff.mp h
  exact ⟨rfl, rfl⟩

theorem addToFreeList_keeps (h : addToFreeList n s = some s') :
    s'.regions = s.regions ∧ s'.env = s.env := by
  obtain ⟨l', -, rfl⟩ := Option.map_eq_some_iff.mp h
  exact ⟨rfl, rfl⟩

/-- Whatever is in memory, `alloc` answers with the aligned pointer in the block it takes. -/
theorem takeBlock_result {node : ℕ}
    (h : takeBlock size alignment node s = some (p, s')) :
    p = userPtr (blockHeader node) alignment ∧ s'.regions = s.regions ∧ s'.env = s.env := by
  obtain ⟨s1, hr, h⟩ := Option.bind_eq_some_iff.mp h
  obtain ⟨h1, h2⟩ := removeFromFreeList_keeps hr
  dsimp only at h
  split_ifs at h with hlarge
  · obtain ⟨s2, hs, h⟩ := Option.bind_eq_some_iff.mp h
    obtain ⟨h3, h4⟩ := addToFreeList_keeps hs
    obtain ⟨hp, hs'⟩ := Prod.mk.inj (Option.some.inj h)
    refine ⟨hp.symm, ?_, ?_⟩
    · rw [← hs', withMem_regions, h3, withMem_regions, withMem_regions, h1]
    · rw [← hs', withMem_env, h4, withMem_env, withMem_env, h2]
  · obtain ⟨hp, hs'⟩ := Prod.mk.inj (Option.some.inj h)
    refine ⟨hp.symm, ?_, ?_⟩
    · rw [← hs', withMem_regions, withMem_regions, h1]
    · rw [← hs', withMem_env, withMem_env, h2]

section

variable (h : Wf s.regions s.list bs) (hb : b ∈ bs) {a : ℕ} {l1 : Store} (hr : Linked.remove listFuel b.node s.list = some l1)
include h hb hr

theorem takeBlock_whole (hsmall : b.size - totalUsed b.start size a < minBlockSize) :
    takeBlock size a b.node s = some (userPtr b.start a, s.withList ⟨l1.head,
      writeShift (userPtr b.start a) (sub (userPtr b.start a) (blockPayload b.start)) (setBlock b.start b.size true l1.mem)⟩) := by
  have hhdr := blockHeader_node (h.bounds hb).2
  have hbsize : blockSize s.mem b.start = b.size := (h.tagged b hb).blockSize
  simp only [takeBlock, hhdr, hbsize, removeFromFreeList, hr, if_neg (Nat.not_le.mpr hsmall), Option.map_some,
    Option.bind_eq_bind, Option.bind_some]
  rewrite [withList_withMem, withList_withMem]
  dsimp only

theorem takeBlock_cut {total : ℕ} {l2 : Store} (ht : totalUsed b.start size a = total) (hlarge : minBlockSize ≤ b.size - total)
    (hi : Linked.insert listFuel (b.start + total + 8) ⟨l1.head, setBlock (b.start + total)
      (b.size - total) false (setBlock b.start total true l1.mem)⟩ = some l2) :
    takeBlock size a b.node s = some (userPtr b.start a, s.withList ⟨l2.head,
      writeShift (userPtr b.start a) (sub (userPtr b.start a) (blockPayload b.start)) l2.mem⟩) := by
  have hlt := (h.bounds hb).2
  have hhdr := blockHeader_node hlt
  have hbsize : blockSize s.mem b.start = b.size := (h.tagged b hb).blockSize
  have h32 : 32 ≤ b.size - total := hlarge
  unfold Block.stop at hlt
  have hpay : blockPayload (b.start + total) = b.start + total + 8 := u64_of_lt (by omega)
  simp only [takeBlock, hhdr, hbsize, ht, removeFromFreeList, addToFreeList, hr, if_pos hlarge, Option.map_some,
    Option.bind_eq_bind, Option.bind_some, u64_of_lt (show b.start + total < 2 ^ 64 by omega), hpay]
  rewrite [withList_withMem, withList_withMem, withList_list, hi]
  simp only [Option.map_some, Option.bind_some]
  rewrite [withList_withList, withList_withMem]
  rfl

end

/-- The branch of `alloc` that takes a block which holds the request, when it does not cut the block after an odd number
of bytes. -/
theorem takeBlock_at (h : Wf s.regions s.list bs) (hb : b ∈ bs) (hfree : b.use = none)
    {a : ℕ} (hp : userPtr b.start a = p) (hlow : b.start + 16 ≤ p) (hhigh : p + size + 8 ≤ b.stop)
    (hu : u.ptr = p ∧ u.size = size ∧ u.ptr % u.alignment = 0)
    (heven : totalUsed b.start size a % 2 = 0 ∨ b.size - totalUsed b.start size a < minBlockSize) :
    ∃ l' bs', takeBlock size a b.node s = some (p, s.withList l') ∧ Taken s.regions s.list l' bs bs' u ∧
      Cut bs b u (totalUsed b.start size a) bs' := by
  have hlt := (h.bounds hb).2
  have htotal : totalUsed b.start size a = max (p - b.start + size + 8) 32 := by
    rw [totalUsed_eq (by omega) (by omega) (by omega), hp]
  have hshift := fun m => writeShift_eq hlt hlow (by omega) m
  obtain ⟨rfl, rfl, hual⟩ := hu
  unfold Block.stop at hhigh hlt
  rcases Nat.lt_or_ge (b.size - totalUsed b.start u.size a) minBlockSize with hsmall | hlarge
  · obtain ⟨l1, c, hr, hcs, hcz, hcu, ht⟩ := h.take_whole hb hfree ⟨hlow, by omega, hual⟩
    refine ⟨_, _, ?_, ht, .whole hsmall hcs hcz hcu⟩
    rw [takeBlock_whole h hb hr hsmall, hp, hshift]
  · obtain ⟨l1, l2, c, g, hr, hi, hc, hg, ht⟩ := h.take_split hb hfree
      (heven.resolve_right (Nat.not_lt.mpr hlarge)) (by omega) hlarge ⟨hlow, by omega, hual⟩
    refine ⟨_, _, ?_, ht, .front hlarge hc hg⟩
    rw [takeBlock_cut h hb hr rfl hlarge hi, hp, hshift]

/-- The same for a power of two as alignment, when the sums do not wrap. -/
theorem takeBlock_spec (h : Wf s.regions s.list bs) (hb : b ∈ bs)
    (hfree : b.use = none) (hk : k ≤ 63) (hal : alignment ∣ 2 ^ k)
    (hp : userPtr b.start (2 ^ k) ≠ 0) (hno : userPtr b.start (2 ^ k) - b.start + size + 8 < 2 ^ 64)
    (hfit : totalUsed b.start size (2 ^ k) ≤ b.size)
    (heven : totalUsed b.start size (2 ^ k) % 2 = 0 ∨ b.size - totalUsed b.start size (2 ^ k) < minBlockSize) :
    ∃ l' bs', takeBlock size (2 ^ k) b.node s = some (userPtr b.start (2 ^ k), s.withList l') ∧
      Taken s.regions s.list l' bs bs' ⟨userPtr b.start (2 ^ k), size, alignment⟩ ∧
      Cut bs b ⟨userPtr b.start (2 ^ k), size, alignment⟩ (totalUsed b.start size (2 ^ k)) bs' := by
  have hlt := (h.bounds hb).2
  have hmin := b.min_le
  obtain ⟨h1, h2, h3⟩ := userPtr_spec hk (by unfold Block.stop at hlt; omega) hp
  have htotal := totalUsed_eq (by omega) h2 hno
  have hpal : userPtr b.start (2 ^ k) % alignment = 0 :=
    Nat.mod_eq_zero_of_dvd (hal.trans (Nat.dvd_of_mod_eq_zero h3))
  exact takeBlock_at h hb hfree rfl h1 (by unfold Block.stop; omega) ⟨rfl, rfl, hpal⟩ heven

theorem RegionsOk.snoc (h : RegionsOk rs) (hlen : rs.length < maxRegions)
    (hn : NewRegion rs virt) : RegionsOk (rs ++ [⟨virt, virt + regionSize⟩]) := by
  refine ⟨by simpa using hlen, fun r hr => ?_, fun r hr => ?_⟩
  · rcases List.mem_append.mp hr with hr | hr
    · exact h.limit r hr
    · rw [List.mem_singleton.mp hr]
  · rcases List.mem_append.mp hr with hr | hr
    · exact h.bounds r hr
    · rw [List.mem_singleton.mp hr]
      exact ⟨hn.aligned, hn.pos, hn.lt⟩

theorem Wf.more_regions {rs' : List HeapRegion} (h : Wf rs l bs) (hok : RegionsOk rs')
    (hsub : ∀ r ∈ rs, r ∈ rs') : Wf rs' l bs := by
  refine ⟨h.uniq, h.tagged, fun b hb x hx => ?_, hok, h.list⟩
  obtain ⟨r, hr, hrx⟩ := h.within b hb x hx
  exact ⟨r, hsub r hr, hrx⟩

theorem Wf.add_region (h : Wf rs l bs) (hlen : rs.length < maxRegions)
    (hn : NewRegion rs virt) :
    ∃ l' g, Linked.insert listFuel (virt + 8) ⟨l.head, setBlock virt regionSize false l.mem⟩ = some l' ∧
      Wf (rs ++ [⟨virt, virt + regionSize⟩]) l' (insert g bs) ∧ g.use = none ∧
      (∀ x, g.Has x ↔ virt ≤ x ∧ x < virt + regionSize) ∧
      ∀ x, ¬ g.Has x → (∀ c ∈ bs, ¬ c.Link x) → l'.mem x = l.mem x := by
  have hal := hn.aligned
  obtain ⟨g, ⟨hgs, -, hgu⟩, hg, hset⟩ := setBlock_free (show virt % 2 = 0 by unfold Pmm.pageSize at hal; omega)
    (show regionSize % 2 = 0 by decide) (by decide) hn.lt
  obtain ⟨ht, hm⟩ := hset l.mem
  generalize setBlock virt regionSize false l.mem = m at ht hm ⊢
  have hd : ∀ a ∈ bs, ∀ x, a.Has x → ¬ g.Has x := by
    intro a ha x hx hgx
    obtain ⟨r, hr, hrx⟩ := h.within a ha x hx
    exact hn.apart r hr x hrx ((hg x).mp hgx)
  have hwf : Wf (rs ++ [⟨virt, virt + regionSize⟩]) ⟨l.head, m⟩ bs :=
    (h.frame_outside fun a ha x hx => hm x (hd a ha x hx)).more_regions (h.regions.snoc hlen hn)
      fun r hr => List.mem_append_left _ hr
  obtain ⟨l', hi, hwf', hframe⟩ := hwf.link hgu ht hd
    (fun x hx => ⟨_, List.mem_append_right _ List.mem_cons_self, (hg x).mp hx⟩)
  rw [show g.node = virt + 8 from congrArg (· + 8) hgs] at hi
  refine ⟨l', g, hi, hwf', hgu, hg, fun x hx hl => ?_⟩
  rw [← hm x hx]
  refine hframe x ?_
  rintro c (rfl | hc) hcl
  · exact hx hcl.has
  · exact hl c hc hcl

/-- The blocks of `bs` fill the regions. -/
structure HeapAt (s : State σ) (bs : Set Block) : Prop where
  wf : Wf s.regions s.list bs
  tiles : ∀ x, (∃ r ∈ s.regions, r.Has x) ↔ ∃ b ∈ bs, b.Has x

/-- What the heap relies on: from `Fresh` states `alloc_pages` answers with a run of pages
away from the regions, or not at all. -/
structure Supply (backing : Backing σ) (Fresh : σ → List HeapRegion → Prop) : Prop where
  fail : ∀ p rs, Fresh p rs →
    (backing.allocPages growPageCount p).1 = Pmm.invalidPhysicalAddress →
    Fresh (backing.allocPages growPageCount p).2 rs
  region : ∀ p rs, Fresh p rs →
    (backing.allocPages growPageCount p).1 ≠ Pmm.invalidPhysicalAddress →
    NewRegion rs (backing.physicalToVirtual (backing.allocPages growPageCount p).1)
  next : ∀ p rs, Fresh p rs →
    (backing.allocPages growPageCount p).1 ≠ Pmm.invalidPhysicalAddress →
    Fresh (backing.allocPages growPageCount p).2 (rs ++
      [⟨backing.physicalToVirtual (backing.allocPages growPageCount p).1,
        backing.physicalToVirtual (backing.allocPages growPageCount p).1 + regionSize⟩])
  giveBack : ∀ p rs, Fresh p rs →
    (backing.allocPages growPageCount p).1 ≠ Pmm.invalidPhysicalAddress →
    Fresh (backing.freePages (backing.allocPages growPageCount p).1 growPageCount
      (backing.allocPages growPageCount p).2) rs

/-- `s'` has the blocks of `s` and new free blocks in new regions. -/
structure Grown (s s' : State σ) (bs bs' : Set Block) : Prop where
  heap : HeapAt s' bs'
  regions : ∀ r ∈ s.regions, r ∈ s'.regions
  old : bs ⊆ bs'
  new : ∀ b ∈ bs', b ∈ bs ∨ b.use = none
  kept : ∀ x, (∃ b ∈ bs, b.use ≠ none ∧ b.Has x) ∨ (∀ r ∈ s'.regions, ¬ r.Has x) →
    s'.mem x = s.mem x

theorem Grown.refl (h : HeapAt s bs) (hr : s'.regions = s.regions)
    (hl : s'.list = s.list) : Grown s s' bs bs := by
  refine ⟨⟨by rw [hr, hl]; exact h.wf, by rw [hr]; exact h.tiles⟩, by simp [hr], subset_rfl,
    fun b hb => Or.inl hb, fun x _ => ?_⟩
  exact congrFun (congrArg Store.mem hl) x

theorem Grown.trans {s2 : State σ} {bs1 bs2 : Set Block} (h1 : Grown s s1 bs bs1)
    (h2 : Grown s1 s2 bs1 bs2) : Grown s s2 bs bs2 := by
  refine ⟨h2.heap, fun r hr => h2.regions r (h1.regions r hr), h1.old.trans h2.old, ?_, ?_⟩
  · intro b hb
    rcases h2.new b hb with hb | hb
    · exact h1.new b hb
    · exact Or.inr hb
  · rintro x (⟨b, hb, hbu, hbx⟩ | hout)
    · rw [h2.kept x (Or.inl ⟨b, h1.old hb, hbu, hbx⟩), h1.kept x (Or.inl ⟨b, hb, hbu, hbx⟩)]
    · rw [h2.kept x (Or.inr hout), h1.kept x (Or.inr fun r hr => hout r (h2.regions r hr))]

theorem initRegion_eq (hlt : virt + regionSize < 2 ^ 64) {l' : Store}
    (hi : Linked.insert listFuel (virt + 8) ⟨s1.list.head, setBlock virt regionSize false s1.list.mem⟩ = some l') :
    initRegionAsFreeBlock virt regionSize s1 = some (s1.withList l') := by
  have hpay : blockPayload virt = virt + 8 := by
    rw [show regionSize = 65536 from rfl] at hlt
    exact u64_of_lt (by omega)
  rewrite [initRegionAsFreeBlock, if_neg (by decide), addToFreeList, hpay, withMem_eq, withList_list, hi,
    Option.map_some, withList_withList]
  rfl

theorem HeapAt.add_region (h : HeapAt s bs) (hlen : s.regions.length < maxRegions)
    (hn : NewRegion s.regions virt)
    (hr : s1.regions = s.regions ++ [⟨virt, virt + regionSize⟩]) (hl : s1.list = s.list) :
    ∃ l' g, initRegionAsFreeBlock virt regionSize s1 = some (s1.withList l') ∧
      Grown s (s1.withList l') bs (insert g bs) ∧ g.use = none ∧ g.start = virt ∧ g.size = regionSize := by
  obtain ⟨l', g, hi, hwf, hgu, hg, hframe⟩ := h.wf.add_region hlen hn
  refine ⟨l', g, initRegion_eq hn.lt (by rw [hl]; exact hi), ⟨⟨by rw [withList_regions, withList_list, hr]; exact hwf,
    fun x => ?_⟩, fun r hr' => ?_, Set.subset_insert _ _, ?_, ?_⟩, hgu, Block.eq_of_has (by decide) hg⟩
  · rw [withList_regions, hr]
    constructor
    · rintro ⟨r, hrm, hx⟩
      rcases List.mem_append.mp hrm with hrm | hrm
      · obtain ⟨b, hb, hbx⟩ := (h.tiles x).mp ⟨r, hrm, hx⟩
        exact ⟨b, Or.inr hb, hbx⟩
      · rw [List.mem_singleton.mp hrm] at hx
        exact ⟨g, Or.inl rfl, (hg x).mpr hx⟩
    · rintro ⟨b, rfl | hb, hx⟩
      · exact ⟨_, List.mem_append_right _ List.mem_cons_self, (hg x).mp hx⟩
      · obtain ⟨r, hrm, hrx⟩ := (h.tiles x).mpr ⟨b, hb, hx⟩
        exact ⟨r, List.mem_append_left _ hrm, hrx⟩
  · rw [withList_regions, hr]
    exact List.mem_append_left _ hr'
  · rintro b (rfl | hb)
    · exact Or.inr hgu
    · exact Or.inl hb
  · intro x hx
    refine hframe x (fun hgx => ?_) fun c hc hcl => ?_
    · rcases hx with ⟨b, hb, -, hbx⟩ | hout
      · obtain ⟨r, hrm, hrx⟩ := h.wf.within b hb x hbx
        exact hn.apart r hrm x hrx ((hg x).mp hgx)
      · refine hout ⟨virt, virt + regionSize⟩ ?_ ((hg x).mp hgx)
        rw [withList_regions, hr]
        exact List.mem_append_right _ List.mem_cons_self
    · rcases hx with ⟨b, hb, hbu, hbx⟩ | hout
      · obtain rfl := h.wf.uniq b hb c hc x hbx hcl.has
        exact hbu hcl.1
      · obtain ⟨r, hrm, hrx⟩ := h.wf.within c hc x hcl.has
        refine hout r ?_ hrx
        rw [withList_regions, hr]
        exact List.mem_append_left _ hrm

/-- What `grow_heap` has done: nothing, or it has added a region that is one free block. -/
inductive Growth (s s' : State σ) (bs : Set Block) : Bool → Set Block → Prop
  | none (hregions : s'.regions = s.regions) (hbacking : s'.backingPages = s.backingPages) : Growth s s' bs false bs
  | region {g : Block} (hnew : NewRegion s.regions g.start) (hfree : g.use = none) (hsize : g.size = regionSize)
      (hlen : s.regions.length < maxRegions) (hregions : s'.regions = s.regions ++ [⟨g.start, g.stop⟩])
      (hbacking : s'.backingPages = u64 (s.backingPages + growPageCount)) : Growth s s' bs true (insert g bs)

theorem growHeap_spec
    (hs : Supply backing Fresh) (h : HeapAt s bs) (hf : Fresh s.env s.regions) :
    ∃ ok s' bs', growHeap backing s = some (ok, s') ∧ Fresh s'.env s'.regions ∧ Grown s s' bs bs' ∧
      Growth s s' bs ok bs' := by
  rcases hq : backing.allocPages growPageCount s.env with ⟨phys, env⟩
  have hfail := hs.fail _ _ hf
  have hregion := hs.region _ _ hf
  have hnext := hs.next _ _ hf
  have hback := hs.giveBack _ _ hf
  simp only [hq] at hfail hregion hnext hback
  unfold growHeap
  rw [hq]
  dsimp only
  split_ifs with hinv
  · exact ⟨false, _, bs, rfl, hfail hinv, Grown.refl h rfl rfl, .none rfl rfl⟩
  · have hn := hregion hinv
    rcases Nat.lt_or_ge s.regions.length maxRegions with hlen | hlen
    · have hlim : u64 (backing.physicalToVirtual phys + regionSize) =
          backing.physicalToVirtual phys + regionSize := u64_of_lt hn.lt
      rw [tryAddRegion, if_neg (Nat.not_le.mpr hlen), hlim]
      dsimp only
      generalize hs1 : State.mk s.mem (s.regions ++ [⟨backing.physicalToVirtual phys,
        backing.physicalToVirtual phys + regionSize⟩]) s.freeList
        (u64 (s.backingPages + growPageCount)) s.failedAllocations env = s1
      obtain ⟨l', g, hi, hg, hgu, hgs, hgz⟩ := h.add_region hlen hn (show s1.regions = _ by rw [← hs1])
        (by rw [← hs1]; rfl)
      refine ⟨true, s1.withList l', insert g bs, by rw [hi]; rfl, ?_, hg, .region (hgs ▸ hn) hgu hgz hlen ?_ ?_⟩
      · rw [withList_env, withList_regions, ← hs1]
        exact hnext hinv
      · rw [withList_regions, ← hs1, Block.stop, hgs, hgz]
      · rw [← hs1]
        rfl
    · rw [tryAddRegion, if_pos hlen]
      exact ⟨false, _, bs, rfl, hback hinv, Grown.refl h rfl rfl, .none rfl rfl⟩

/-- The walk of `alloc` ends at a free block that fits or at the end of the list. -/
theorem seek_fits (h : Wf s.regions s.list bs) (size alignment : ℕ) :
    ∃ link, Linked.seek s.list (fits s.mem size alignment) listFuel none = some link ∧
      (s.list.get link = 0 ∨ ∃ b ∈ bs, b.use = none ∧ b.node = s.list.get link ∧
        totalUsed b.start size alignment ≤ b.size) := by
  obtain ⟨ns, h1, h2, h3⟩ := h.list
  obtain ⟨A, B, rfl, -, hB, hr⟩ := h1.seek (fits s.mem size alignment)
    (h.length_lt h2 fun n hn => (h3 n).mp hn) (Or.inl rfl)
  refine ⟨_, hr, ?_⟩
  obtain ⟨-, hseg⟩ := h1.split
  rcases B with _ | ⟨n, B⟩
  · exact Or.inl hseg
  · obtain ⟨b, hb, hbu, hbn⟩ := (h3 n).mp (by simp)
    have hfits := hB n (by simp)
    rw [fits, ← hbn, blockHeader_node (h.bounds hb).2] at hfits
    have hsize : blockSize s.mem b.start = b.size := (h.tagged b hb).blockSize
    rw [hsize, decide_eq_true_eq] at hfits
    exact Or.inr ⟨b, hb, hbu, hbn.trans hseg.1.symm, hfits⟩

/-- The search of `alloc` ends, and what it finds is a free block that fits. What `grow_heap` keeps, the search keeps. -/
theorem findBlock_keeps
    (hs : Supply backing Fresh) (size alignment : ℕ)
    (hP : ∀ {s s' : State σ} {bs bs' : Set Block} {ok : Bool}, P s bs → Growth s s' bs ok bs' → P s' bs')
    (fuel : ℕ) (s : State σ) (bs : Set Block) (h : HeapAt s bs) (hf : Fresh s.env s.regions) (hp : P s bs)
    (hlen : maxRegions < fuel + s.regions.length) :
    ∃ r s' bs', findBlock backing size alignment fuel s = some (r, s') ∧ Grown s s' bs bs' ∧
      Fresh s'.env s'.regions ∧ P s' bs' ∧ ∀ n, r = some n →
        ∃ b ∈ bs', b.use = none ∧ b.node = n ∧ totalUsed b.start size alignment ≤ b.size := by
  induction fuel generalizing s bs with
  | zero =>
    have := h.wf.regions.count
    omega
  | succ fuel ih =>
    obtain ⟨link, hr, hlink⟩ := seek_fits h.wf size alignment
    rw [findBlock, hr]
    dsimp only
    rcases hlink with hzero | ⟨b, hb, hbu, hbn, hfit⟩
    · rw [if_neg (by simpa using hzero)]
      obtain ⟨ok, s1, bs1, hg, hf1, hgrown, hgrowth⟩ := growHeap_spec hs h hf
      have hp1 := hP hp hgrowth
      rw [hg]
      cases hgrowth with
      | none => exact ⟨none, s1, bs, rfl, hgrown, hf1, hp1, by simp⟩
      | region _ _ _ _ hregions _ =>
        obtain ⟨r, s2, bs2, hr2, hgrown2, hf2, hp2, hfound⟩ := ih s1 _ hgrown.heap hf1 hp1 (by simp [hregions]; omega)
        exact ⟨r, s2, bs2, hr2, hgrown.trans hgrown2, hf2, hp2, hfound⟩
    · have hne : s.list.get link ≠ 0 := by
        rw [← hbn]
        unfold Block.node
        omega
      rw [if_pos hne]
      refine ⟨_, s, bs, rfl, Grown.refl h rfl rfl, hf, hp, fun n hn => ?_⟩
      rw [Option.some.injEq] at hn
      exact ⟨b, hb, hbu, hbn.trans hn, hfit⟩

theorem findBlock_spec (hs : Supply backing Fresh)
    (size alignment fuel : ℕ) (s : State σ) (bs : Set Block) (h : HeapAt s bs) (hf : Fresh s.env s.regions)
    (hlen : maxRegions < fuel + s.regions.length) :
    ∃ r s' bs', findBlock backing size alignment fuel s = some (r, s') ∧ Grown s s' bs bs' ∧
      Fresh s'.env s'.regions ∧ ∀ n, r = some n →
        ∃ b ∈ bs', b.use = none ∧ b.node = n ∧ totalUsed b.start size alignment ≤ b.size := by
  obtain ⟨r, s', bs', hr, hg, hf', -, hfound⟩ :=
    findBlock_keeps hs size alignment (fun _ _ => trivial) fuel s bs h hf trivial hlen
  exact ⟨r, s', bs', hr, hg, hf', hfound⟩

theorem atLeast8_pow (j : ℕ) : atLeast8 (2 ^ j) = 2 ^ max j 3 := by
  unfold atLeast8
  split_ifs with h
  · have : j < 3 := (Nat.pow_lt_pow_iff_right (by decide)).mp (h : 2 ^ j < 2 ^ 3)
    rw [max_eq_right (by omega)]
    rfl
  · have : 3 ≤ j := (Nat.pow_le_pow_iff_right (by decide)).mp (Nat.not_lt.mp h : 2 ^ 3 ≤ 2 ^ j)
    rw [max_eq_left this]

def Uses (bs : Set Block) : Set Use := { u | ∃ b ∈ bs, b.use = some u }

/-- The block `alloc` is about to take gives the request an even block, or is not split. -/
def EvenSplit (backing : Backing σ) (size alignment : ℕ) (s : State σ) : Prop :=
  ∀ node s1, findBlock backing size (atLeast8 alignment) (maxRegions + 1) s = some (some node, s1) →
    size % 2 = 0 ∨ blockSize s1.mem (blockHeader node) -
      totalUsed (blockHeader node) size (atLeast8 alignment) < minBlockSize

theorem Grown.uses {bs' : Set Block} (h : Grown s s' bs bs') : Uses bs' = Uses bs := by
  ext u
  constructor
  · rintro ⟨b, hb, hbu⟩
    rcases h.new b hb with hb | hb
    · exact ⟨b, hb, hbu⟩
    · rw [hb] at hbu
      cases hbu
  · rintro ⟨b, hb, hbu⟩
    exact ⟨b, h.old hb, hbu⟩

/-- What `grow_heap`, taking a block and counting a failure keep, `alloc` keeps. -/
structure Kept (P : State σ → Set Block → Prop) : Prop where
  grow : ∀ {s s' : State σ} {bs bs' : Set Block} {ok : Bool}, P s bs → Growth s s' bs ok bs' → P s' bs'
  fail : ∀ {s : State σ} {bs : Set Block} (n : ℕ), P s bs → P { s with failedAllocations := n } bs
  take : ∀ {s : State σ} {bs bs' : Set Block} {b : Block} {u : Use} {total : ℕ} (l' : Store),
    P s bs → b ∈ bs → Cut bs b u total bs' → P (s.withList l') bs'

theorem Kept.trivial : Kept fun (_ : State σ) _ => True := ⟨fun _ _ => True.intro, fun _ _ => True.intro, fun _ _ _ _ => True.intro⟩

/-- `alloc` returns; the pointer it returns is a new allocation and no other changes. -/
theorem alloc_at
    (hs : Supply backing Fresh) (hP : Kept P) (h : HeapAt s bs) (hf : Fresh s.env s.regions) (hp : P s bs)
    {al : ℕ} (hsize : size ≠ 0) (hal : ∀ start, al ∣ userPtr start (atLeast8 alignment))
    (hholds : HoldsRequest backing size alignment s) (hsplit : EvenSplit backing size alignment s) :
    ∃ p s' bs', alloc backing size alignment s = some (p, s') ∧ HeapAt s' bs' ∧
      Fresh s'.env s'.regions ∧ P s' bs' ∧ (∀ r ∈ s.regions, r ∈ s'.regions) ∧
      (∀ x, (∃ b ∈ bs, b.use ≠ none ∧ b.Has x) ∨ (∀ r ∈ s'.regions, ¬ r.Has x) →
        s'.mem x = s.mem x) ∧
      (p = 0 ∧ Uses bs' = Uses bs ∨ p ≠ 0 ∧ Uses bs' = insert ⟨p, size, al⟩ (Uses bs)) := by
  obtain ⟨r, s1, bs1, hr, hg, hf1, hp1, hfound⟩ := findBlock_keeps hs size (atLeast8 alignment) hP.grow
    (maxRegions + 1) s bs h hf hp (by omega)
  rw [alloc, if_neg hsize, hr]
  rcases r with _ | n
  · exact ⟨0, _, bs1, rfl, ⟨hg.heap.wf, hg.heap.tiles⟩, hf1, hP.fail _ hp1, hg.regions, hg.kept, Or.inl ⟨rfl, hg.uses⟩⟩
  · obtain ⟨b, hb, hbu, rfl, hfit⟩ := hfound n rfl
    have hodd := hsplit b.node s1 hr
    obtain ⟨hlow, hhigh⟩ := hholds b.node s1 hr
    have hlt := (hg.heap.wf.bounds hb).2
    have hbsize : blockSize s1.mem b.start = b.size := (hg.heap.wf.tagged b hb).blockSize
    rw [blockHeader_node hlt, hbsize] at hodd hhigh
    rw [blockHeader_node hlt] at hlow
    have heven : totalUsed b.start size (atLeast8 alignment) % 2 = 0 ∨
        b.size - totalUsed b.start size (atLeast8 alignment) < minBlockSize := hodd.imp_left fun hsize => by
      have h1 : userPtr b.start (atLeast8 alignment) % 2 = 0 := userPtr_even b.start_even
      have h2 := b.start_even
      unfold Block.stop at hlt
      rw [totalUsed_eq (by omega) (by omega) (by omega)]
      omega
    obtain ⟨l', bs', ht, htaken, hcut⟩ := takeBlock_at hg.heap.wf hb hbu rfl hlow hhigh
      (u := ⟨_, size, al⟩) ⟨rfl, rfl, Nat.mod_eq_zero_of_dvd (hal b.start)⟩ heven
    refine ⟨_, s1.withList l', bs', ht, ⟨htaken.change.wf, fun x => ?_⟩, hf1, hP.take l' hp1 hb hcut, hg.regions,
      fun x hx => ?_, Or.inr ⟨by omega, ?_⟩⟩
    · rw [withList_regions, hg.heap.tiles x, htaken.change.cover x]
    · rw [← hg.kept x hx]
      refine htaken.change.outside x fun c hc hcu hcx => ?_
      simp only [Set.mem_empty_iff_false, or_false] at hcu
      rcases hx with ⟨a, ha, hau, hax⟩ | hout
      · obtain rfl := hg.heap.wf.uniq a (hg.old ha) c hc x hax hcx
        exact hau hcu
      · obtain ⟨r, hr, hrx⟩ := hg.heap.wf.within c hc x hcx
        exact hout r hr hrx
    · rw [← hg.uses]
      ext u
      exact htaken.uses u

/-- Without a wrap the block that is found holds the request. -/
theorem holdsRequest_of_noWrap (hs : Supply backing Fresh)
    (h : HeapAt s bs) (hf : Fresh s.env s.regions) (hj : j ≤ 63)
    (hsz : size + max (2 ^ j) 8 + 24 ≤ 2 ^ 64) : HoldsRequest backing size (2 ^ j) s := by
  intro node s' hcall
  obtain ⟨r, s1, bs1, hr, hg, -, hfound⟩ := findBlock_spec hs size (atLeast8 (2 ^ j)) (maxRegions + 1) s bs h hf (by omega)
  obtain ⟨rfl, rfl⟩ := Prod.mk.inj (Option.some.inj (hr.symm.trans hcall))
  obtain ⟨b, hb, -, rfl, hfit⟩ := hfound node rfl
  have hlt := (hg.heap.wf.bounds hb).2
  have hbsize : blockSize s1.mem b.start = b.size := (hg.heap.wf.tagged b hb).blockSize
  have hpow : 2 ^ max j 3 = max (2 ^ j) 8 := by
    rw [← atLeast8_pow, atLeast8]
    split_ifs <;> omega
  rw [blockHeader_node hlt, hbsize]
  rw [atLeast8_pow] at hfit ⊢
  obtain ⟨hlow, -, htotal⟩ := totalUsed_spec (by omega) (by omega) b.min_le hlt hfit
  omega

theorem alloc_spec
    (hs : Supply backing Fresh) (h : HeapAt s bs) (hf : Fresh s.env s.regions)
    (hsize : size ≠ 0) (hj : j ≤ 63) (hsz : size + max (2 ^ j) 8 + 24 ≤ 2 ^ 64)
    (hsplit : EvenSplit backing size (2 ^ j) s) :
    ∃ p s' bs', alloc backing size (2 ^ j) s = some (p, s') ∧ HeapAt s' bs' ∧
      Fresh s'.env s'.regions ∧ (∀ r ∈ s.regions, r ∈ s'.regions) ∧
      (∀ x, (∃ b ∈ bs, b.use ≠ none ∧ b.Has x) ∨ (∀ r ∈ s'.regions, ¬ r.Has x) →
        s'.mem x = s.mem x) ∧
      (p = 0 ∧ Uses bs' = Uses bs ∨
        p ≠ 0 ∧ Uses bs' = insert ⟨p, size, 2 ^ j⟩ (Uses bs)) := by
  have hal : ∀ start, 2 ^ j ∣ userPtr start (atLeast8 (2 ^ j)) := fun start => by
    rw [atLeast8_pow]
    exact (Nat.pow_dvd_pow 2 (le_max_left j 3)).trans (userPtr_dvd start (by omega))
  obtain ⟨p, s', bs', hr, hheap, hf', -, hrest⟩ := alloc_at hs Kept.trivial h hf True.intro hsize hal
    (holdsRequest_of_noWrap hs h hf hj hsz) hsplit
  exact ⟨p, s', bs', hr, hheap, hf', hrest⟩

end Tori.Heap
