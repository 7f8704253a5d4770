import Tori.Proofs.HeapFree

/-! What an odd request does to the heap when it splits a block. The remainder starts at an odd
address and its node stays on the free list, whatever `free` then does with the block; no block
of a well-formed heap has an odd node. -/

namespace Tori.Heap

open Word Linked

variable {σ : Type} {rs : List HeapRegion} {l : Store} {bs : Set Block} {A : List ℕ}

variable {size hdr stuck total : ℕ} {b : Block} {s : State σ}

theorem or_allocatedFlag_odd (hs : size % 2 = 1) (a : Bool) :
    (size ||| if a then allocatedFlag else 0) = size := by
  cases a with
  | false => simp
  | true =>
    have heven : (size - 1) % 2 = 0 := by omega
    have h := or_allocatedFlag heven true
    simp only [if_true, Bool.toNat_true] at h ⊢
    rw [show size = (size - 1) ||| allocatedFlag by rw [h]; omega, Nat.or_assoc, Nat.or_self]

/-- `set_block` with an odd size writes the size itself. -/
theorem setBlock_odd (m : Mem) (hdr : ℕ) (a : Bool) (hodd : size % 2 = 1)
    (hmin : minBlockSize ≤ size) (hlt : hdr + size < 2 ^ 64) :
    (setBlock hdr size a m).load64 hdr = size ∧
      ∀ x, (x < hdr ∨ hdr + size ≤ x) → setBlock hdr size a m x = m x := by
  have hm : 32 ≤ size := hmin
  obtain ⟨hheader, -, hframe⟩ := setBlock_word m hdr a (or_allocatedFlag_odd hodd a) (by omega) (by omega) hlt
  exact ⟨hheader, hframe⟩

/-- `set_block` writes inside the block, and an allocated block has an odd header. -/
theorem setBlock_any (m : Mem) (hdr : ℕ) (a : Bool) (hmin : minBlockSize ≤ size) (hlt : hdr + size < 2 ^ 64) :
    (a = true → (setBlock hdr size a m).load64 hdr % 2 = 1) ∧
      ∀ x, (x < hdr ∨ hdr + size ≤ x) → setBlock hdr size a m x = m x := by
  rcases Nat.mod_two_eq_zero_or_one size with heven | hodd
  · obtain ⟨hword, -, hframe⟩ := setBlock_spec m hdr a heven hmin hlt
    refine ⟨?_, hframe⟩
    rintro rfl
    rw [hword, Bool.toNat_true]
    omega
  · obtain ⟨hword, hframe⟩ := setBlock_odd m hdr a hodd hmin hlt
    exact ⟨fun _ => by rw [hword]; exact hodd, hframe⟩

/-- The free list reaches `stuck` through nodes of free blocks below `hdr`. -/
structure Reaches (l : Store) (bs : Set Block) (A : List ℕ) (hdr stuck : ℕ) : Prop where
  seg : Seg l.mem l.head A stuck
  ascending : Ascending A
  nodes : ∀ n ∈ A, ∃ c ∈ bs, c.use = none ∧ c.node = n ∧ c.stop ≤ hdr
  le : hdr + 8 ≤ stuck

theorem Reaches.below (h : Reaches l bs A hdr stuck) {n : ℕ} (hn : n ∈ A) : n + 24 ≤ hdr := by
  obtain ⟨c, -, -, rfl, hle⟩ := h.nodes n hn
  have := c.min_le
  unfold Block.node
  unfold Block.stop at hle
  omega

variable {m : Mem} {ns B : List ℕ} {p : ℕ} {s' : State σ}

theorem Reaches.frame (h : Reaches l bs A hdr stuck)
    (hm : ∀ x < hdr, m x = l.mem x) : Reaches ⟨l.head, m⟩ bs A hdr stuck := by
  refine ⟨seg_congr (fun n hn => Mem.load64_congr fun x _ hx => hm x ?_) h.seg, h.ascending, h.nodes, h.le⟩
  have := h.below hn
  omega

/-- The free list of a well-formed heap does not reach an odd node. -/
theorem Wf.even_of_seg (h : Wf rs l bs) (hseg : Seg l.mem l.head A stuck) : stuck % 2 = 0 := by
  by_contra hodd
  obtain ⟨ns, h1, -, h3⟩ := h.list
  obtain ⟨c, -, -, hc⟩ := (h3 stuck).mp (hseg.mem_list (by omega) h1)
  have := c.start_even
  unfold Block.node at hc
  omega

/-- After an odd request has split `b`: the block has `total` bytes, and the node of the
remainder is on the list between the nodes `A` and `B` of the other free blocks. -/
structure OddTaken (s s' : State σ) (bs : Set Block) (b : Block) (p size total : ℕ) (A B : List ℕ) : Prop where
  regions : s'.regions = s.regions
  odd : total % 2 = 1
  ptr : b.start + 16 ≤ p ∧ p + size + 8 = b.start + total
  room : total + 32 ≤ b.size
  list : IsList s'.list (A ++ (b.start + total + 8) :: B)
  ascending : Ascending (A ++ (b.start + total + 8) :: B)
  length : (A ++ (b.start + total + 8) :: B).length < listFuel
  nodes : ∀ n, n ∈ A ++ B ↔ ∃ c ∈ bs, c ≠ b ∧ c.use = none ∧ c.node = n
  header : s'.mem.load64 b.start = total
  rest : s'.mem.load64 (b.start + total) = b.size - total
  shift : s'.mem.load64 (p - 8) = p - b.node
  mem : ∀ x, ¬ b.Has x → (∀ c ∈ bs, ¬ c.Link x) → s'.mem x = s.mem x

theorem Wf.node_outside (h : Wf rs l bs) {c : Block} (hb : b ∈ bs) (hc : c ∈ bs) (hne : c ≠ b) :
    c.stop ≤ b.start ∨ b.stop ≤ c.start :=
  Block.apart fun x hx hbx => hne (h.uniq c hc b hb x hx hbx)

theorem Wf.nodes_outside (h : Wf rs l bs) (hb : b ∈ bs)
    (hns : ∀ n, n ∈ ns ↔ ∃ c ∈ bs \ {b}, c.use = none ∧ c.node = n) :
    ∀ n ∈ ns, n < 2 ^ 64 ∧ (n + 24 ≤ b.start ∨ b.start + b.size + 8 ≤ n) := by
  intro n hn
  obtain ⟨c, hc, -, rfl⟩ := (hns n).mp hn
  have hap := h.node_outside hb hc.1 hc.2
  have hclt := (h.bounds hc.1).2
  have := c.min_le
  unfold Block.stop at hap hclt
  unfold Block.node
  omega

/-- `b` is cut after `total` bytes, odd or not: the node of the remainder replaces its own on the list. -/
theorem Wf.cut (h : Wf rs l bs) (hb : b ∈ bs) (hfree : b.use = none) (hmin : minBlockSize ≤ total)
    (hrem : minBlockSize ≤ b.size - total) :
    ∃ l1 l2 A B, Linked.remove listFuel b.node l = some l1 ∧
      Linked.insert listFuel (b.start + total + 8) ⟨l1.head, setBlock (b.start + total)
        (b.size - total) false (setBlock b.start total true l1.mem)⟩ = some l2 ∧
      IsList l2 (A ++ (b.start + total + 8) :: B) ∧ Ascending (A ++ (b.start + total + 8) :: B) ∧
      (∀ n, n ∈ A ++ B ↔ ∃ c ∈ bs \ {b}, c.use = none ∧ c.node = n) ∧
      l2.mem.load64 b.start = (setBlock b.start total true l1.mem).load64 b.start ∧
      l2.mem.load64 (b.start + total) = (setBlock (b.start + total) (b.size - total) false
        (setBlock b.start total true l1.mem)).load64 (b.start + total) ∧
      ∀ x, ¬ b.Has x → (∀ c ∈ bs, ¬ c.Link x) → l2.mem x = l.mem x := by
  have hlt := (h.bounds hb).2
  have h32 : 32 ≤ b.size - total := hrem
  have ht32 : 32 ≤ total := hmin
  unfold Block.stop at hlt
  -- the block leaves the list
  obtain ⟨l1, hr, hwf1, hframe1⟩ := h.unlink hb hfree
  obtain ⟨ns, hl, hasc, hns⟩ := hwf1.list
  have hout : ∀ n ∈ ns, n < 2 ^ 64 ∧ (n + 24 ≤ b.start ∨ b.start + b.size + 8 ≤ n) := h.nodes_outside hb hns
  -- both parts get their tags
  obtain ⟨-, hm1⟩ := setBlock_any l1.mem b.start true hmin (by omega)
  refine ⟨l1, ?_⟩
  generalize setBlock b.start total true l1.mem = m1 at *
  obtain ⟨-, hm2⟩ := setBlock_any m1 (b.start + total) false hrem (by omega)
  generalize setBlock (b.start + total) (b.size - total) false m1 = m2 at *
  have hm : ∀ x, x < b.start ∨ b.start + b.size ≤ x → m2 x = l1.mem x := fun x hx =>
    (hm2 x (by omega)).trans (hm1 x (by omega))
  have hl2 : IsList ⟨l1.head, m2⟩ ns := hl.congr rfl fun n hn => Mem.load64_congr fun x h1 h2 => by
    have := hout n hn
    exact hm x (by omega)
  -- the remainder's node joins it
  obtain ⟨A, B, l2, rfl, hi, hlist, hasc2, hframe2⟩ := hl2.insert hasc (hwf1.length_lt hasc fun n hn => (hns n).mp hn)
    (fun n hn => (hout n hn).1) (Or.inl rfl) (by decide) (show b.start + total + 8 ≠ 0 by omega) (by omega)
    fun n hn => by have := hout n hn; omega
  have hin : ∀ x, b.start ≤ x → x < b.start + total + 8 → l2.mem x = m2 x := fun x h1 h2 => hframe2 x fun n hn => by
    rcases List.mem_cons.mp hn with rfl | hn
    · omega
    · have := hout n hn
      omega
  refine ⟨l2, A, B, hr, hi, hlist, hasc2, hns, Mem.load64_congr fun x h1 h2 => ?_,
    Mem.load64_congr fun x h1 h2 => hin x (by omega) (by omega), fun x hx hl => ?_⟩
  · rw [hin x h1 (by omega), hm2 x (by omega)]
  · have hxb : x < b.start ∨ b.start + b.size ≤ x := by
      unfold Block.Has Block.stop at hx
      omega
    refine (hframe2 x fun n hn => ?_).trans ((hm x hxb).trans (hframe1 x hl))
    rcases List.mem_cons.mp hn with rfl | hn
    · omega
    · obtain ⟨c, hc, hcu, rfl⟩ := (hns n).mp hn
      have := hl c hc.1
      simp only [Block.Link, hcu, true_and] at this
      omega

theorem takeBlock_odd (h : Wf s.regions s.list bs) (hb : b ∈ bs)
    (hfree : b.use = none) {k : ℕ} (hk : k ≤ 63) (hp : userPtr b.start (2 ^ k) ≠ 0)
    (hno : userPtr b.start (2 ^ k) - b.start + size + 8 < 2 ^ 64)
    (hodd : totalUsed b.start size (2 ^ k) % 2 = 1) (hfit : totalUsed b.start size (2 ^ k) ≤ b.size)
    (hrem : minBlockSize ≤ b.size - totalUsed b.start size (2 ^ k)) :
    ∃ s' A B, takeBlock size (2 ^ k) b.node s = some (userPtr b.start (2 ^ k), s') ∧
      OddTaken s s' bs b (userPtr b.start (2 ^ k)) size (totalUsed b.start size (2 ^ k)) A B := by
  have hlt := (h.bounds hb).2
  have hbz := b.size_even
  have hmin := b.min_le
  obtain ⟨h1, h2, -⟩ := userPtr_spec hk (by unfold Block.stop at hlt; omega) hp
  have h3 := totalUsed_eq (by omega) h2 hno
  have hshift := fun m => writeShift_eq hlt h1 (by unfold Block.stop; omega) m
  have hle : minBlockSize ≤ totalUsed b.start size (2 ^ k) := le_max_right _ _
  obtain ⟨l1, l2, A, B, hr, hi, hlist, hasc, hns, hheader, hrest, hframe⟩ := h.cut hb hfree hle hrem
  have htake := takeBlock_cut h hb hr rfl hrem hi
  rw [hshift] at htake
  generalize userPtr b.start (2 ^ k) = p at *
  generalize totalUsed b.start size (2 ^ k) = total at *
  unfold Block.stop at hlt
  have h32 : 32 ≤ b.size - total := hrem
  have htotal : total % 2 = 1 ∧ p + size + 8 = b.start + total := by omega
  have hout : ∀ n ∈ A ++ B, n < 2 ^ 64 ∧ (n + 24 ≤ b.start ∨ b.start + b.size + 8 ≤ n) := h.nodes_outside hb hns
  refine ⟨_, A, B, htake,
    ⟨rfl, htotal.1, ⟨h1, htotal.2⟩, by omega, ?_, hasc, ?_, fun n => ?_, ?_, ?_, ?_, fun x hx hl => ?_⟩⟩
  · refine seg_congr (fun n hn => Mem.load64_store64_apart _ ?_) hlist
    rcases List.mem_append.mp hn with hn | hn
    · have := hout n (List.mem_append_left _ hn)
      omega
    · rcases List.mem_cons.mp hn with rfl | hn
      · omega
      · have := hout n (List.mem_append_right _ hn)
        omega
  · -- the list is as long as with the block's own node
    have hasc3 : Ascending (A ++ b.node :: B) := by
      rw [Ascending, List.pairwise_append, List.pairwise_cons] at hasc ⊢
      obtain ⟨hA, ⟨hB1, hB2⟩, hAB⟩ := hasc
      refine ⟨hA, ⟨fun n hn => ?_, hB2⟩, fun m hm n hn => ?_⟩
      · have h4 := hout n (List.mem_append_right _ hn)
        have h5 := hB1 n hn
        unfold Block.node
        omega
      · rcases List.mem_cons.mp hn with rfl | hn
        · have h4 := hout m (List.mem_append_left _ hm)
          have h5 := hAB m hm _ List.mem_cons_self
          unfold Block.node
          omega
        · exact hAB m hm n (List.mem_cons_of_mem _ hn)
    have := h.length_lt hasc3 fun n hn => by
      rcases List.mem_append.mp hn with hn | hn
      · obtain ⟨c, hc, hcu⟩ := (hns n).mp (List.mem_append_left _ hn)
        exact ⟨c, hc.1, hcu⟩
      · rcases List.mem_cons.mp hn with rfl | hn
        · exact ⟨b, hb, hfree, rfl⟩
        · obtain ⟨c, hc, hcu⟩ := (hns n).mp (List.mem_append_right _ hn)
          exact ⟨c, hc.1, hcu⟩
    simpa using this
  · rw [hns n]
    constructor
    · rintro ⟨c, ⟨hc, hne⟩, hcu⟩
      exact ⟨c, hc, hne, hcu⟩
    · rintro ⟨c, hc, hne, hcu⟩
      exact ⟨c, ⟨hc, hne⟩, hcu⟩
  · rw [(setBlock_odd l1.mem b.start true htotal.1 (by unfold minBlockSize; omega) (by omega)).1] at hheader
    exact (Mem.load64_store64_apart _ (Or.inl (by omega))).trans hheader
  · rw [(setBlock_odd _ (b.start + total) false (show (b.size - total) % 2 = 1 by omega) hrem (by omega)).1] at hrest
    exact (Mem.load64_store64_apart _ (Or.inr (by omega))).trans hrest
  · exact Mem.load64_store64 _ _ (by omega)
  · have hxb := hx
    unfold Block.Has Block.stop at hxb
    exact (Mem.store64_outside _ (by omega)).trans (hframe x hx hl)

/-- The nodes before the odd one are those of the free blocks below the block. -/
theorem OddTaken.reaches (h : Wf s.regions s.list bs) (hb : b ∈ bs)
    (ht : OddTaken s s' bs b p size total A B) :
    Reaches s'.list bs A b.start (b.start + total + 8) ∧
      ∀ c ∈ bs, c.use = none → c.stop ≤ b.start → c.node ∈ A := by
  have hasc := ht.ascending
  rw [Ascending, List.pairwise_append, List.pairwise_cons] at hasc
  obtain ⟨hA, ⟨hB, -⟩, hAB⟩ := hasc
  have hroom := ht.room
  have hseg : Seg s'.list.mem s'.list.head A (b.start + total + 8) := by
    obtain ⟨k, h1, h2, -⟩ := seg_append.mp ht.list
    rw [h2] at h1
    exact h1
  refine ⟨⟨hseg, hA, fun n hn => ?_, by omega⟩, fun c hc hcu hle => ?_⟩
  · obtain ⟨c, hc, hne, hcu, rfl⟩ := (ht.nodes n).mp (List.mem_append_left _ hn)
    have hlt := hAB c.node hn _ List.mem_cons_self
    have hap := h.node_outside hb hc hne
    refine ⟨c, hc, hcu, rfl, ?_⟩
    unfold Block.node at hlt
    unfold Block.stop at hap ⊢
    omega
  · unfold Block.stop at hle
    have hmem := (ht.nodes c.node).mpr ⟨c, hc, fun he => by rw [he] at hle; omega, hcu, rfl⟩
    rcases List.mem_append.mp hmem with hmem | hmem
    · exact hmem
    · have := hB c.node hmem
      unfold Block.node at this
      omega

/-- After `coalesceNext` on an odd block, whose `next` is one byte off: the list is untouched
below the block, whatever size was read there. -/
theorem coalesceNext_odd {rest : ℕ} (hsl : s.list = l) (hl : IsList l ns)
    (hlen : ns.length < listFuel) (hodd : total % 2 = 1) (hmin : 33 ≤ total) (habsent : hdr + total + 7 ∉ ns)
    (hheader : l.mem.load64 hdr = total - 1) (hrest : l.mem.load64 (hdr + total) = rest)
    (hroom : hdr + total + 256 * rest + 256 < 2 ^ 64) :
    ∃ m z, coalesceNext hdr (total - 1) s = some (s.withList ⟨l.head, m⟩) ∧ (∀ x < hdr, m x = l.mem x) ∧
      blockSize m hdr = z ∧ z % 2 = 0 ∧ minBlockSize ≤ z ∧ hdr + z < 2 ^ 64 := by
  subst hsl
  have hheader : s.mem.load64 hdr = total - 1 := hheader
  have hrest : s.mem.load64 (hdr + total) = rest := hrest
  have hsize : blockSize s.mem hdr = total - 1 := by
    rw [blockSize, and_sizeMask (s.mem.load64_lt _), hheader]
    omega
  have hnext : nextBlock s.mem hdr = hdr + total - 1 := by
    rw [nextBlock, hsize, u64_of_lt (by omega)]
    omega
  rw [coalesceNext, hnext]
  split_ifs with hcond
  · -- the size read at `next` is made of the stale byte before the remainder and its header
    have hread : blockSize s.mem (hdr + total - 1) ≤ 255 + 256 * rest := by
      have hle := s.mem.load64_le_succ (hdr + total - 1)
      rw [show hdr + total - 1 + 1 = hdr + total by omega, hrest] at hle
      rw [blockSize, and_sizeMask (s.mem.load64_lt _)]
      omega
    have heven : blockSize s.mem (hdr + total - 1) % 2 = 0 := by
      rw [blockSize, and_sizeMask (s.mem.load64_lt _)]
      omega
    generalize hy : blockSize s.mem (hdr + total - 1) = y at hread heven
    have hpay : blockPayload (hdr + total - 1) = hdr + total + 7 := by
      rw [blockPayload, u64_of_lt (by omega)]
      omega
    have hsum : u64 (total - 1 + y) = total - 1 + y := u64_of_lt (by omega)
    have hkeep : s.withList s.list = s := rfl
    obtain ⟨h1, -, h3⟩ := setBlock_spec s.mem hdr false (show (total - 1 + y) % 2 = 0 by omega)
      (by unfold minBlockSize; omega) (by omega)
    refine ⟨setBlock hdr (total - 1 + y) false s.mem, total - 1 + y, ?_, fun x hx => h3 x (Or.inl hx), ?_,
      by omega, by unfold minBlockSize; omega, by omega⟩
    · rewrite [hpay, removeFromFreeList, hl.remove_absent hlen habsent, Option.map_some, Option.bind_eq_bind,
        Option.bind_some, hkeep, hy, hsum]
      exact congrArg some (withMem_eq s _)
    · rw [blockSize, and_sizeMask (Mem.load64_lt _ _), h1, Bool.toNat_false]
      omega
  · exact ⟨s.mem, total - 1, rfl, fun _ _ => rfl, hsize, by omega, by unfold minBlockSize; omega, by omega⟩

/-- `coalescePrev` takes the block below out of the list if that block is free. -/
theorem coalescePrev_odd (h : Wf s.regions s.list bs)
    (htiles : ∀ x, (∃ r ∈ s.regions, r.Has x) ↔ ∃ b ∈ bs, b.Has x) (hb : b ∈ bs) {r : HeapRegion}
    (hr : r ∈ s.regions) (hrb : r.Has b.start) {z : ℕ} (hsl : s'.list = l)
    (hreach : Reaches l bs A b.start stuck) (hlow : ∀ c ∈ bs, c.use = none → c.stop ≤ b.start → c.node ∈ A)
    (htags : ∀ c ∈ bs, c.stop ≤ b.start → Tagged l.mem c) (hz : blockSize l.mem b.start = z)
    (heven : z % 2 = 0) (hmin : minBlockSize ≤ z) (hlt : b.start + z < 2 ^ 64) :
    ∃ hdr l' A', coalescePrev b.start (some r) s' = some (hdr, s'.withList l') ∧
      Reaches l' bs A' hdr stuck ∧ hdr < 2 ^ 64 - 8 := by
  subst hsl
  have htags : ∀ c ∈ bs, c.stop ≤ b.start → Tagged s'.mem c := htags
  have hz : blockSize s'.mem b.start = z := hz
  have hz32 : 32 ≤ z := hmin
  have hbase : u64 (r.base + 8) = r.base + 8 := by
    have hlim := h.regions.limit r hr
    have hrb := h.regions.bounds r hr
    rw [show regionSize = 65536 from rfl] at hlim
    exact u64_of_lt (by omega)
  have hlen : A.length < listFuel := h.length_lt hreach.ascending fun n hn => by
    obtain ⟨c, hc, hcu, hcn, -⟩ := hreach.nodes n hn
    exact ⟨c, hc, hcu, hcn⟩
  rw [coalescePrev, hbase]
  split_ifs with hcond
  · -- the byte before the block is the last byte of a block
    obtain ⟨h1, -, -, h4⟩ := hcond
    unfold HeapRegion.Has at hrb
    obtain ⟨a, ha, hax⟩ := (htiles (b.start - 1)).mp ⟨r, hr, by unfold HeapRegion.Has; omega⟩
    have hne : a ≠ b := by
      rintro rfl
      unfold Block.Has at hax
      omega
    have hadj : a.stop = b.start := by
      have hap := h.node_outside hb ha hne
      unfold Block.Has Block.stop at *
      omega
    have htag := htags a ha hadj.le
    have hfoot : s'.mem.load64 (sub b.start 8) &&& sizeMask = a.size := by
      rw [sub_of_le (by omega) (by omega), ← hadj]
      exact htag.footerSize
    have hprev : sub b.start a.size = a.start := by
      unfold Block.stop at hadj
      rw [sub_of_le (by omega) (by omega)]
      omega
    rw [hfoot, hprev] at h4 ⊢
    have hafree : a.use = none := by
      rw [htag.blockAllocated] at h4
      simpa using h4
    obtain ⟨A1, B1, rfl⟩ := List.append_of_mem (hlow a ha hafree hadj.le)
    obtain ⟨l1, hrm, hseg, hframe⟩ := hreach.seg.remove hreach.ascending hlen
    have hsub : (A1 ++ B1).Sublist (A1 ++ a.node :: B1) := (List.sublist_cons_self _ _).append_left A1
    have hnodes : ∀ n ∈ A1 ++ B1, ∃ c ∈ bs, c.use = none ∧ c.node = n ∧ c.stop ≤ a.start := by
      intro n hn
      obtain ⟨c, hc, hcu, rfl, hle⟩ := hreach.nodes n (hsub.subset hn)
      have hca : c ≠ a := by
        rintro rfl
        have hnodup : (A1 ++ c.node :: B1).Nodup := hreach.ascending.imp fun hab => by omega
        exact (List.nodup_middle.mp hnodup).notMem hn
      have hap := h.node_outside ha hc hca
      have := c.min_le
      refine ⟨c, hc, hcu, rfl, ?_⟩
      unfold Block.stop at *
      omega
    -- neither header is a link word of the list
    have hahead : l1.mem.load64 a.start = s'.mem.load64 a.start := Mem.load64_congr fun x h5 h6 =>
      hframe x fun n hn => by
        rcases List.mem_cons.mp (List.perm_middle.mem_iff.mp hn) with rfl | hn
        · unfold Block.node
          omega
        · obtain ⟨c, -, -, rfl, hle⟩ := hnodes n hn
          have := c.min_le
          unfold Block.stop at hle
          unfold Block.node
          omega
    have hbhead : l1.mem.load64 b.start = s'.mem.load64 b.start := Mem.load64_congr fun x h5 h6 =>
      hframe x fun n hn => by
        have := hreach.below hn
        omega
    have hasize : blockSize l1.mem a.start = a.size := by
      rw [← htag.blockSize, blockSize, blockSize, hahead]
    have hbsize : blockSize l1.mem b.start = z := by
      rw [← hz, blockSize, blockSize, hbhead]
    have hsum : u64 (a.size + z) = a.size + z := by
      unfold Block.stop at hadj
      exact u64_of_lt (by omega)
    have haeven := a.size_even
    obtain ⟨-, -, h7⟩ := setBlock_spec l1.mem a.start false (show (a.size + z) % 2 = 0 by omega)
      (by unfold minBlockSize; omega) (by unfold Block.stop at hadj; omega)
    refine ⟨a.start, ⟨l1.head, setBlock a.start (a.size + z) false l1.mem⟩, A1 ++ B1, ?_, ?_, ?_⟩
    · rewrite [blockPayload_start (h.bounds ha).2, removeFromFreeList, hrm, Option.map_some,
        Option.bind_eq_bind, Option.bind_some, withList_mem, hasize, hbsize, hsum, withList_withMem]
      rfl
    · have hsmall : Reaches l1 bs (A1 ++ B1) a.start stuck :=
        ⟨hseg, hreach.ascending.sublist hsub, hnodes, by have := hreach.le; unfold Block.stop at hadj; omega⟩
      exact hsmall.frame fun x hx => h7 x (Or.inl hx)
    · unfold Block.stop at hadj
      omega
  · exact ⟨b.start, s'.list, A, rfl, hreach, by omega⟩

/-- `free` of the pointer: if it returns at all, the odd node is still on the list. -/
theorem OddTaken.free_stuck {s1 s2 : State σ} (h : HeapAt s bs) (hb : b ∈ bs)
    (ht : OddTaken s s1 bs b p size total A B)
    (hroom : b.start + 512 * b.size < 2 ^ 64) (hsize : 16 ≤ size)
    (hm : ∀ x, x < p ∨ p + size ≤ x → m x = s1.mem x)
    (hcall : free p { s1 with mem := m } = some s2) :
    ∃ A', Seg s2.list.mem s2.list.head A' (b.start + total + 8) := by
  obtain ⟨hp1, hp2⟩ := ht.ptr
  have htroom := ht.room
  have htodd := ht.odd
  have hregions := ht.regions
  obtain ⟨hreach, hlow⟩ := ht.reaches h.wf hb
  have hlt := (h.wf.bounds hb).2
  generalize hs' : ({ s1 with mem := m } : State σ) = s' at hcall
  have hmem : s'.mem = m := by rw [← hs']
  have hreg : s'.regions = s.regions := by rw [← hs']; exact hregions
  -- the client's writes touch no word that `free` reads
  have hheader : m.load64 b.start = total := by
    rw [← ht.header]
    exact Mem.load64_congr fun x h1 h2 => hm x (by omega)
  have hrest : m.load64 (b.start + total) = b.size - total := by
    rw [← ht.rest]
    exact Mem.load64_congr fun x h1 h2 => hm x (by omega)
  have hshift : m.load64 (p - 8) = p - b.node := by
    rw [← ht.shift]
    exact Mem.load64_congr fun x h1 h2 => hm x (by omega)
  have hin : ∀ x, b.Has x → (regionOf s' x).isSome = true := fun x hx => by
    rw [regionOf_isSome, hreg]
    exact h.wf.within b hb x hx
  have hcontains : contains s' p = true := by
    rw [contains, hin p (by unfold Block.Has Block.stop; omega), Bool.and_true, bne_iff_ne]
    omega
  have hhdr : headerFromUserPtr s'.mem p = b.start := by
    rw [hmem, headerFromUserPtr, payloadFromUserPtr, readShift, sub_of_le (show 8 ≤ p by omega) (by omega),
      hshift, sub_of_le (Nat.sub_le _ _) (by omega)]
    unfold Block.node
    rw [show p - (p - (b.start + 8)) = b.start + 8 by omega]
    exact blockHeader_node (h.wf.bounds hb).2
  have halloc : blockAllocated s'.mem b.start = true := by
    rw [hmem, blockAllocated, and_allocatedFlag, hheader]
    simpa using htodd
  have hbsize : blockSize s'.mem b.start = total - 1 := by
    rw [hmem, blockSize, and_sizeMask (m.load64_lt _), hheader]
    omega
  obtain ⟨r, hr⟩ := Option.isSome_iff_exists.mp (hin b.start (by unfold Block.Has Block.stop; omega))
  obtain ⟨hrm, hrb⟩ := regionOf_some hr
  rw [hreg] at hrm
  rw [free, if_neg (by omega), if_neg (by simp [hcontains]), hhdr] at hcall
  dsimp only at hcall
  rw [if_neg (by simp [halloc]), hbsize, hr, withMem_eq] at hcall
  obtain ⟨hw1, -, hw2⟩ := setBlock_spec m b.start false (show (total - 1) % 2 = 0 by omega)
    (by unfold minBlockSize; omega) (by omega)
  rw [Bool.toNat_false, Nat.add_zero] at hw1
  have hlist' : s'.list = ⟨s1.freeList, m⟩ := by rw [← hs']; rfl
  rw [hlist'] at hcall
  generalize setBlock b.start (total - 1) false m = m1 at hw1 hw2 hcall
  have hm1 : ∀ x, x < b.start ∨ b.start + total - 1 ≤ x → m1 x = s1.mem x := fun x hx =>
    (hw2 x (by omega)).trans (hm x (by omega))
  -- where the nodes of the list are
  have hasc := ht.ascending
  rw [Ascending, List.pairwise_append, List.pairwise_cons] at hasc
  have hnode : ∀ n ∈ A ++ (b.start + total + 8) :: B, n + 24 ≤ b.start ∨ b.start + total + 8 ≤ n := by
    intro n hn
    rcases List.mem_append.mp hn with hn | hn
    · exact Or.inl (hreach.below hn)
    · rcases List.mem_cons.mp hn with rfl | hn
      · exact Or.inr le_rfl
      · have := hasc.2.1.1 n hn
        omega
  have hl1 : IsList ⟨s1.freeList, m1⟩ (A ++ (b.start + total + 8) :: B) :=
    ht.list.congr rfl fun n hn => Mem.load64_congr fun x h1 h2 => hm1 x (by have := hnode n hn; omega)
  have hm1rest : m1.load64 (b.start + total) = b.size - total := by
    rw [← hrest]
    exact Mem.load64_congr fun x h1 h2 => hw2 x (by omega)
  -- the neighbour above, which is not one
  have habsent : b.start + total + 7 ∉ A ++ (b.start + total + 8) :: B := fun hmem => by
    have := hnode _ hmem
    omega
  obtain ⟨m2, z, hn, hm2, hz, hzeven, hzmin, hzlt⟩ := coalesceNext_odd (withList_list s' _) hl1 ht.length htodd
    (by omega) habsent hw1 hm1rest (by omega)
  rw [hn, Option.bind_eq_bind, Option.bind_some, withList_withList] at hcall
  -- the neighbour below
  have hm2low : ∀ x < b.start, m2 x = s1.mem x := fun x hx => (hm2 x hx).trans (hm1 x (Or.inl hx))
  have htags : ∀ c ∈ bs, c.stop ≤ b.start → Tagged m2 c := fun c hc hle => by
    refine (h.wf.tagged c hc).congr fun x hx => ?_
    have hxc := hx.has
    have hxlt : x < b.start := by
      unfold Block.Has at hxc
      omega
    refine (hm2low x hxlt).trans (ht.mem x (fun hbx => ?_) fun a ha hl => ?_)
    · unfold Block.Has at hbx
      omega
    · obtain rfl := h.wf.uniq c hc a ha x hxc hl.has
      exact hx.not_link hl
  have hreach2 : Reaches ⟨s1.freeList, m2⟩ bs A b.start (b.start + total + 8) := hreach.frame hm2low
  obtain ⟨hdr, l', A', hpv, hreach', hhdr64⟩ := coalescePrev_odd h.wf h.tiles hb hrm hrb (withList_list s' _)
    hreach2 hlow htags hz hzeven hzmin hzlt
  rw [hpv, Option.bind_eq_bind, Option.bind_some, withList_withList] at hcall
  -- the node of the freed block comes before the odd one
  have hlen : A'.length < listFuel := h.wf.length_lt hreach'.ascending fun n hn => by
    obtain ⟨c, hc, hcu, hcn, -⟩ := hreach'.nodes n hn
    exact ⟨c, hc, hcu, hcn⟩
  have hpay : blockPayload hdr = hdr + 8 := u64_of_lt (by omega)
  have hstuck := hreach'.le
  obtain ⟨A1, B1, l3, -, hi, hseg, -, -⟩ := hreach'.seg.insert hreach'.ascending hlen
    (fun n hn => by have := hreach'.below hn; omega) (Or.inr hstuck) (by omega) (by omega) (by omega)
    (fun n hn => by have := hreach'.below hn; omega)
  rw [hpay, addToFreeList, withList_list, hi, Option.map_some, withList_withList, Option.some.injEq] at hcall
  rw [← hcall, withList_list]
  exact ⟨_, hseg⟩

end Tori.Heap
