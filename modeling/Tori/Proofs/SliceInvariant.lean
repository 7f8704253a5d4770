import Tori.Lib.Sum
import Tori.Proofs.SliceOps

/-! Every state of a run of the slice allocator is safe. The invariant says that the free and
the live slices of a class are together the slices carved for it, each once; disjointness and
all counters follow from that. -/

namespace Tori.Kalloc

open Word Loop Linked Function

variable {a : Allocation}

/-- The slices carved for class `i`. -/
def slicesOf (carved : List (ℕ × Fin 8)) (i : Fin 8) : List ℕ :=
  (carved.filter fun c => c.2 = i).flatMap fun c => pageSlices c.1 (classSize i) (Pmm.pageSize / classSize i)

def livePointers (live : List Allocation) (i : Fin 8) : List ℕ :=
  (live.filter fun a => a.classOf = some i).map Allocation.pointer

/-- The counters of the classes are `free`, `total` and `pages`, and the global ones their sums. -/
structure Counts (classes : Fin 8 → SizeClass) (stats : SliceStats) (free total pages : Fin 8 → ℕ) : Prop where
  free_eq : ∀ i, (classes i).freeSlices = free i
  total_eq : ∀ i, (classes i).totalSlices = total i
  backing_eq : ∀ i, (classes i).backingPages = pages i
  free_sum : stats.freeSlices = ∑ i, free i
  total_sum : stats.totalSlices = ∑ i, total i
  backing_sum : stats.backingPages = ∑ i, pages i

def pagesOf (carved : List (ℕ × Fin 8)) (i : Fin 8) : ℕ := carved.countP fun c => c.2 = i

structure SliceInv (hhdmOffset : ℕ) (s : State) (live : List Allocation) (free : Fin 8 → List ℕ) : Prop where
  lists : SlicesAt hhdmOffset s free
  once : (s.env.carved.map Prod.fst).Nodup
  slices_nodup : ∀ i, (slicesOf s.env.carved i).Nodup
  partition : ∀ i, (free i ++ livePointers live i).Perm (slicesOf s.env.carved i)
  served : ∀ a ∈ live, ∃ i, a.classOf = some i
  counts : Counts s.env.classes s.env.stats (fun i => (free i).length)
    (fun i => (slicesOf s.env.carved i).length) (pagesOf s.env.carved)

variable {hhdmOffset : ℕ} {s s' : State} {live live' : List Allocation} {free : Fin 8 → List ℕ} {i : Fin 8} {n : ℕ}

/-! ### Carved slices -/

theorem mem_slicesOf {env : Env} : n ∈ slicesOf env.carved i ↔ Carved env i n := by
  simp only [slicesOf, List.mem_flatMap, List.mem_filter, decide_eq_true_eq, mem_pageSlices, Carved]
  constructor
  · rintro ⟨⟨page, j⟩, ⟨hc, rfl⟩, k, hk, he⟩
    exact ⟨page, k, hc, hk, he⟩
  · rintro ⟨page, k, hc, hk, he⟩
    exact ⟨(page, i), ⟨hc, rfl⟩, k, hk, he⟩

theorem slicesOf_cons (c : ℕ × Fin 8) (carved : List (ℕ × Fin 8)) (j : Fin 8) :
    slicesOf (c :: carved) j =
      (if c.2 = j then pageSlices c.1 (classSize j) (Pmm.pageSize / classSize j) else []) ++ slicesOf carved j := by
  by_cases h : c.2 = j
  · simp [slicesOf, h]
  · simp [slicesOf, h]

@[simp] theorem length_pageSlices (page size n : ℕ) : (pageSlices page size n).length = n := by
  simp [pageSlices]

theorem slicesPerPage_le (i : Fin 8) : Pmm.pageSize / classSize i ≤ 256 := by
  fin_cases i <;> decide

theorem length_slicesOf_le (carved : List (ℕ × Fin 8)) (i : Fin 8) :
    (slicesOf carved i).length ≤ 256 * carved.length := by
  induction carved with
  | nil => simp [slicesOf]
  | cons c carved ih =>
    have hpage := slicesPerPage_le i
    rw [slicesOf_cons, List.length_append, List.length_cons]
    split_ifs
    · rw [length_pageSlices]
      omega
    · rw [List.length_nil]
      omega

theorem length_le_of_nodup {l : List ℕ} {bound : ℕ} (h : l.Nodup) (hlt : ∀ x ∈ l, x < bound) :
    l.length ≤ bound := by
  have := (h.subperm fun x hx => List.mem_range.mpr (hlt x hx)).length_le
  rwa [List.length_range] at this

theorem SliceInv.carved_le (h : SliceInv hhdmOffset s live free) : s.env.carved.length ≤ 2 ^ 20 := by
  have hpage : ∀ c ∈ s.env.carved, (c.1 - hhdmOffset) / Pmm.pageSize < 2 ^ 20 ∧
      c.1 = hhdmOffset + (c.1 - hhdmOffset) / Pmm.pageSize * Pmm.pageSize := by
    intro c hc
    obtain ⟨q, h1, h2, -⟩ := h.lists.pages.carvedPages c hc
    simp only [Pmm.pageSize, Pmm.maxManagedPages] at *
    omega
  have hnodup : (s.env.carved.map fun c => (c.1 - hhdmOffset) / Pmm.pageSize).Nodup := by
    refine (List.Nodup.of_map _ h.once).map_on fun c hc d hd he => ?_
    refine h.lists.pages.carvedOnce c hc d hd ?_
    rw [(hpage c hc).2, (hpage d hd).2, he]
  have := length_le_of_nodup hnodup fun q hq => by
    obtain ⟨c, hc, rfl⟩ := List.mem_map.mp hq
    exact (hpage c hc).1
  rwa [List.length_map] at this

/-! ### Counters -/

theorem sum_le {f : Fin 8 → ℕ} {b : ℕ} (h : ∀ i, f i ≤ b) : ∑ i, f i ≤ 8 * b := by
  simpa using Finset.sum_le_card_nsmul Finset.univ f b fun i _ => h i

theorem SliceInv.bounds (h : SliceInv hhdmOffset s live free) (i : Fin 8) :
    (free i).length ≤ 2 ^ 28 ∧ (slicesOf s.env.carved i).length ≤ 2 ^ 28 ∧ pagesOf s.env.carved i ≤ 2 ^ 20 := by
  have h1 := h.carved_le
  have h2 := length_slicesOf_le s.env.carved i
  have h3 := (h.partition i).length_eq
  have h4 : pagesOf s.env.carved i ≤ s.env.carved.length := List.countP_le_length
  rw [List.length_append] at h3
  omega

theorem SliceInv.sums_le (h : SliceInv hhdmOffset s live free) :
    s.env.stats.freeSlices ≤ 2 ^ 31 ∧ s.env.stats.totalSlices ≤ 2 ^ 31 ∧ s.env.stats.backingPages ≤ 2 ^ 23 := by
  have h1 := sum_le fun i => (h.bounds i).1
  have h2 := sum_le fun i => (h.bounds i).2.1
  have h3 := sum_le fun i => (h.bounds i).2.2
  rw [h.counts.free_sum, h.counts.total_sum, h.counts.backing_sum]
  omega

/-- The counters of one class change, and the global ones by as much. -/
theorem Counts.step {classes : Fin 8 → SizeClass} {stats stats' : SliceStats} {c : SizeClass}
    {free free' total total' pages pages' : Fin 8 → ℕ} (h : Counts classes stats free total pages)
    (hfree : c.freeSlices = free' i) (htotal : c.totalSlices = total' i) (hpages : c.backingPages = pages' i)
    (hothers : ∀ j, j ≠ i → free' j = free j ∧ total' j = total j ∧ pages' j = pages j)
    (hstats : stats'.freeSlices + free i = stats.freeSlices + free' i ∧
      stats'.totalSlices + total i = stats.totalSlices + total' i ∧
      stats'.backingPages + pages i = stats.backingPages + pages' i) :
    Counts (update classes i c) stats' free' total' pages' := by
  have h1 := sum_replace free free' (Finset.mem_univ i) fun j _ hj => (hothers j hj).1
  have h2 := sum_replace total total' (Finset.mem_univ i) fun j _ hj => (hothers j hj).2.1
  have h3 := sum_replace pages pages' (Finset.mem_univ i) fun j _ hj => (hothers j hj).2.2
  rw [h.free_sum, h.total_sum, h.backing_sum] at hstats
  refine ⟨fun j => ?_, fun j => ?_, fun j => ?_, by omega, by omega, by omega⟩
  all_goals by_cases hj : j = i
  · subst hj
    simpa using hfree
  · rw [update_of_ne hj, h.free_eq, (hothers j hj).1]
  · subst hj
    simpa using htotal
  · rw [update_of_ne hj, h.total_eq, (hothers j hj).2.1]
  · subst hj
    simpa using hpages
  · rw [update_of_ne hj, h.backing_eq, (hothers j hj).2.2]

/-! ### The steps -/

theorem livePointers_cons (ha : a.classOf = some i) (live : List Allocation) (j : Fin 8) :
    livePointers (a :: live) j = (if i = j then [a.pointer] else []) ++ livePointers live j := by
  by_cases h : i = j
  · simp [livePointers, ha, h]
  · simp [livePointers, ha, h]

theorem livePointers_perm (h : live.Perm live') (i : Fin 8) :
    (livePointers live i).Perm (livePointers live' i) := (h.filter _).map _

theorem mem_livePointers (ha : a ∈ live) (hi : a.classOf = some i) :
    a.pointer ∈ livePointers live i :=
  List.mem_map_of_mem (List.mem_filter.mpr ⟨ha, by simpa using hi⟩)

theorem u64_add_small {x k : ℕ} (hx : x ≤ 2 ^ 31) (hk : k ≤ 256) : u64 (x + k) = x + k := u64_of_lt (by omega)

theorem SliceInv.grow_counts (h : SliceInv hhdmOffset s live free) (i : Fin 8) (page : ℕ) (pmm : Pmm.State) :
    Counts (grown i page pmm s).env.classes (grown i page pmm s).env.stats
      (fun j => (grownFree i page free j).length)
      (fun j => (slicesOf ((page, i) :: s.env.carved) j).length) (pagesOf ((page, i) :: s.env.carved)) := by
  have hfree : (grownFree i page free i).length = (free i).length + Pmm.pageSize / classSize i := by
    rw [grownFree, update_self, List.length_append, List.length_reverse, length_pageSlices]
    omega
  have htotal : (slicesOf ((page, i) :: s.env.carved) i).length =
      (slicesOf s.env.carved i).length + Pmm.pageSize / classSize i := by
    rw [slicesOf_cons, if_pos rfl, List.length_append, length_pageSlices]
    omega
  have hpages : pagesOf ((page, i) :: s.env.carved) i = pagesOf s.env.carved i + 1 := by
    simp [pagesOf]
  obtain ⟨hb1, hb2, hb3⟩ := h.bounds i
  obtain ⟨hs1, hs2, hs3⟩ := h.sums_le
  have hper := slicesPerPage_le i
  have hsize := (h.lists.table i).1
  refine h.counts.step ?_ ?_ ?_ (fun j hj => ⟨?_, ?_, ?_⟩) ⟨?_, ?_, ?_⟩
  · rw [hfree, ← u64_add_small (by omega) hper]
    rw [h.counts.free_eq, hsize]
  · rw [htotal, ← u64_add_small (by omega) hper]
    rw [h.counts.total_eq, hsize]
  · rw [h.counts.backing_eq, hpages, inc]
    exact u64_add_small (by omega) (by decide)
  · rw [grownFree, update_of_ne hj]
  · rw [slicesOf_cons, if_neg (Ne.symm hj), List.nil_append]
  · simp [pagesOf, Ne.symm hj]
  · dsimp only [grown]
    rw [hfree, hsize, u64_add_small hs1 hper]
    omega
  · dsimp only [grown]
    rw [htotal, hsize, u64_add_small hs2 hper]
    omega
  · dsimp only [grown]
    rw [hpages, inc, u64_add_small (by omega) (by decide)]
    omega

theorem SliceInv.grow (hd : DirectMap hhdmOffset) (h : SliceInv hhdmOffset s live free) {page q : ℕ}
    {pmm : Pmm.State} (hf : Fresh hhdmOffset page s.env.pmm pmm q) :
    SliceInv hhdmOffset (grown i page pmm s) live (grownFree i page free) := by
  obtain ⟨hnew, hlists, -⟩ := h.lists.grow hd hf
  obtain ⟨hmin, -, hall⟩ := classSize_spec i
  have hcarved : (grown i page pmm s).env.carved = (page, i) :: s.env.carved := rfl
  refine ⟨hlists, ?_, fun j => ?_, fun j => ?_, h.served, h.grow_counts i page pmm⟩
  · rw [hcarved, List.map_cons]
    exact List.nodup_cons.mpr ⟨hnew, h.once⟩
  · rw [hcarved, slicesOf_cons]
    split_ifs with hj
    · obtain rfl : i = j := hj
      refine List.nodup_append.mpr ⟨nodup_pageSlices _ _ (by omega), h.slices_nodup i, fun x hx y hy he => ?_⟩
      have h1 := pageSlices_lt hx
      have h2 := (mem_slicesOf.mp hy).outside h.lists.pages hf.page_eq hnew
      rw [hall] at h1
      omega
    · exact h.slices_nodup j
  · rw [hcarved, slicesOf_cons, grownFree]
    by_cases hj : i = j
    · subst hj
      rw [if_pos rfl, update_self, List.append_assoc]
      exact (List.reverse_perm _).append (h.partition i)
    · rw [if_neg hj, update_of_ne (Ne.symm hj)]
      exact h.partition j

section

variable (h : SliceInv hhdmOffset s live free)
include h

theorem SliceInv.pop_counts {ns : List ℕ} (hi : free i = n :: ns) :
    Counts (popSlice i s).2.env.classes (popSlice i s).2.env.stats
      (fun j => (update free i ns j).length) (fun j => (slicesOf s.env.carved j).length)
      (pagesOf s.env.carved) := by
  have hlen : (free i).length = ns.length + 1 := by
    rw [hi, List.length_cons]
  obtain ⟨hs1, -, -⟩ := h.sums_le
  have hle : (free i).length ≤ s.env.stats.freeSlices := by
    rw [h.counts.free_sum]
    exact Finset.single_le_sum (f := fun j => (free j).length) (fun _ _ => Nat.zero_le _) (Finset.mem_univ i)
  have hdec : ∀ x, 0 < x → x ≤ 2 ^ 31 → dec x = x - 1 := fun x h1 h2 => dec_of_pos h1 (by omega)
  have hstats : (popSlice i s).2.env.stats =
      { s.env.stats with freeSlices := dec s.env.stats.freeSlices } := rfl
  refine h.counts.step ?_ ?_ ?_ (fun j hj => ⟨?_, ?_, ?_⟩) ⟨?_, ?_, ?_⟩
  · rw [h.counts.free_eq, update_self, hdec _ (by omega) (by omega), hlen, Nat.add_sub_cancel]
  · exact h.counts.total_eq i
  · exact h.counts.backing_eq i
  · rw [update_of_ne hj]
  · rfl
  · rfl
  · rw [hstats, update_self, hdec _ (by omega) (by omega)]
    dsimp only
    omega
  · rw [hstats]
  · rw [hstats]

theorem SliceInv.pop {ns : List ℕ} (hi : free i = n :: ns) (ha : a.classOf = some i) (hp : a.pointer = n) :
    SliceInv hhdmOffset (popSlice i s).2 (a :: live) (update free i ns) := by
  obtain ⟨-, hlists⟩ := h.lists.pop hi
  refine ⟨hlists, h.once, h.slices_nodup, fun j => ?_, ?_, h.pop_counts hi⟩
  · rw [livePointers_cons ha]
    by_cases hj : i = j
    · subst hj
      rw [if_pos rfl, update_self, hp]
      refine (List.perm_middle).trans ?_
      have := h.partition i
      rwa [hi] at this
    · rw [if_neg hj, update_of_ne (Ne.symm hj)]
      exact h.partition j
  · rw [List.forall_mem_cons]
    exact ⟨⟨i, ha⟩, h.served⟩

theorem SliceInv.give_counts {p size : ℕ} (hp : p ≠ 0) (hclass : classFor s.env.classes size 8 = some i) :
    Counts (sliceFree p size s).env.classes (sliceFree p size s).env.stats
      (fun j => (update free i (p :: free i) j).length) (fun j => (slicesOf s.env.carved j).length)
      (pagesOf s.env.carved) := by
  obtain ⟨hb1, -, -⟩ := h.bounds i
  obtain ⟨hs1, -, -⟩ := h.sums_le
  have hstats : (sliceFree p size s).env.stats =
      { s.env.stats with freeSlices := inc s.env.stats.freeSlices } := by
    rw [sliceFree, if_neg hp, hclass]
  have hclasses : (sliceFree p size s).env.classes = update s.env.classes i
      { s.env.classes i with freeList := p, freeSlices := inc (s.env.classes i).freeSlices } := by
    rw [sliceFree, if_neg hp, hclass]
  rw [hclasses]
  refine h.counts.step ?_ ?_ ?_ (fun j hj => ⟨?_, ?_, ?_⟩) ⟨?_, ?_, ?_⟩
  · rw [h.counts.free_eq, update_self, List.length_cons, inc_of_lt (by omega)]
  · exact h.counts.total_eq i
  · exact h.counts.backing_eq i
  · rw [update_of_ne hj]
  · rfl
  · rfl
  · rw [hstats, update_self, List.length_cons, inc_of_lt (by omega)]
    dsimp only
    omega
  · rw [hstats]
  · rw [hstats]

theorem SliceInv.live_slice (ha : a ∈ live)
    (hi : a.classOf = some i) : Carved s.env i a.pointer ∧ a.pointer ∉ free i := by
  have hmem := mem_livePointers ha hi
  have hnodup := (h.partition i).nodup_iff.mpr (h.slices_nodup i)
  refine ⟨mem_slicesOf.mp ((h.partition i).mem_iff.mp (List.mem_append_right _ hmem)), fun hfree => ?_⟩
  exact (List.nodup_append.mp hnodup).2.2 _ hfree _ hmem rfl

end

theorem SliceInv.give (hd : DirectMap hhdmOffset) (h : SliceInv hhdmOffset s live free)
    (ha : a ∈ live) (hi : a.classOf = some i) :
    SliceInv hhdmOffset (sliceFree a.pointer a.size s) (live.erase a)
      (update free i (a.pointer :: free i)) := by
  obtain ⟨hcarved, hnew⟩ := h.live_slice ha hi
  have hpos := (hcarved.word hd h.lists.pages).1
  have hclass : classFor s.env.classes a.size 8 = some i := by
    rw [classFor_table h.lists.table]
    exact classFor_free hi
  obtain ⟨hlists, -⟩ := h.lists.give hd hclass hcarved hnew
  have henv : (sliceFree a.pointer a.size s).env.carved = s.env.carved := by
    rw [sliceFree, if_neg hpos, hclass]
  have hperm := livePointers_perm (List.perm_cons_erase ha)
  refine ⟨hlists, by rw [henv]; exact h.once, by rw [henv]; exact h.slices_nodup, fun j => ?_,
    fun b hb => h.served b (List.mem_of_mem_erase hb), by rw [henv]; exact h.give_counts hpos hclass⟩
  rw [henv]
  refine List.Perm.trans ?_ (h.partition j)
  have hj := hperm j
  rw [livePointers_cons hi] at hj
  by_cases hij : i = j
  · subst hij
    rw [if_pos rfl] at hj
    rw [update_self]
    exact (List.perm_middle.symm).trans (hj.symm.append_left _)
  · rw [if_neg hij] at hj
    rw [update_of_ne (Ne.symm hij)]
    exact hj.symm.append_left _

theorem SliceInv.failed (h : SliceInv hhdmOffset s live free) :
    SliceInv hhdmOffset (countFailure s) live free :=
  ⟨h.lists.failed, h.once, h.slices_nodup, h.partition, h.served, ⟨h.counts.free_eq, h.counts.total_eq,
    h.counts.backing_eq, h.counts.free_sum, h.counts.total_sum, h.counts.backing_sum⟩⟩

theorem room_eq (hi : a.classOf = some i) : a.room = classSize i := by
  rw [Allocation.room, hi, Option.elim_some]

theorem SliceInv.free_apart (h : SliceInv hhdmOffset s live free) (hn : n ∈ free i)
    (ha : a ∈ live) : n + classSize i ≤ a.pointer ∨ a.pointer + a.room ≤ n := by
  obtain ⟨j, hj⟩ := h.served a ha
  obtain ⟨hcarved, hnew⟩ := h.live_slice ha hj
  have hc := h.lists.carved i n hn
  have hne : n ≠ a.pointer := by
    rintro rfl
    exact hnew (hc.class_eq h.lists.pages hcarved ▸ hn)
  rw [room_eq hj]
  exact hc.apart h.lists.pages hcarved hne

theorem SliceInv.live_apart (h : SliceInv hhdmOffset s live free) :
    live.Pairwise fun a b => a.pointer + a.room ≤ b.pointer ∨ b.pointer + b.room ≤ a.pointer := by
  rw [List.pairwise_iff_forall_sublist]
  intro a b hab
  have ha : a ∈ live := hab.subset List.mem_cons_self
  have hb : b ∈ live := hab.subset (List.mem_cons_of_mem _ List.mem_cons_self)
  obtain ⟨i, hi⟩ := h.served a ha
  obtain ⟨j, hj⟩ := h.served b hb
  have hca := (h.live_slice ha hi).1
  have hcb := (h.live_slice hb hj).1
  have hne : a.pointer ≠ b.pointer := by
    intro he
    obtain rfl : i = j := by
      rw [he] at hca
      exact hca.class_eq h.lists.pages hcb
    have hsub := (hab.filter fun c => c.classOf = some i).map Allocation.pointer
    have hnodup := (h.partition i).nodup_iff.mpr (h.slices_nodup i)
    have := (List.nodup_append.mp hnodup).2.1.sublist hsub
    simp [hi, hj, he] at this
  rw [room_eq hi, room_eq hj]
  exact hca.apart h.lists.pages hcb hne

theorem fits_room (hi : a.classOf = some i) : a.size ≤ a.room := by
  rw [room_eq hi]
  exact (classFor_some hi).2.2.1

theorem SliceInv.elsewhere (h : SliceInv hhdmOffset s live free) (he : Elsewhere hhdmOffset live s s') :
    SliceInv hhdmOffset s' live free := by
  have hcarved : ∀ i n, Carved s'.env i n ↔ Carved s.env i n := fun i n => by
    rw [← mem_slicesOf, ← mem_slicesOf, he.carved]
  have hpages : EnvOk hhdmOffset s'.env [] := by
    refine ⟨by simp, ?_, by simp, by rw [he.carved]; exact h.lists.pages.carvedOnce⟩
    rw [he.carved]
    intro c hc
    obtain ⟨q, h1, h2, h3⟩ := h.lists.pages.carvedPages c hc
    exact ⟨q, h1, h2, he.used c hc q h1 h3⟩
  have hlists : SlicesAt hhdmOffset s' free := by
    refine ⟨hpages, by rw [he.classes]; exact h.lists.table, fun i => ?_, h.lists.nodup,
      fun i n hn => (hcarved i n).mpr (h.lists.carved i n hn)⟩
    rw [he.classes]
    -- the bytes of a free slice are in a carved page and in no live allocation
    refine list_congr (h.lists.list i) fun n hn x h1 h2 => ?_
    obtain ⟨page, k, hp, hk, rfl⟩ := h.lists.carved i n hn
    have hend := slot_end hk
    have hmin := (classSize_spec i).1
    refine he.mem _ hp x (by dsimp only; omega) (by dsimp only; omega) fun a ha hx => ?_
    obtain ⟨j, hj⟩ := h.served a ha
    have hapart := h.free_apart hn ha
    have hfits := fits_room hj
    unfold Allocation.Has at hx
    omega
  refine ⟨hlists, ?_, ?_, ?_, h.served, ?_⟩
  · rw [he.carved]
    exact h.once
  · rw [he.carved]
    exact h.slices_nodup
  · rw [he.carved]
    exact h.partition
  · rw [he.carved, he.classes, he.stats]
    exact h.counts

theorem sliceInv_init (h : s.env.classes = initialClasses) :
    SliceInv hhdmOffset (sliceInit s) [] fun _ => [] := by
  refine ⟨⟨⟨by simp, by simp [sliceInit, State.withEnv], by simp, by simp [sliceInit, State.withEnv]⟩, fun i => ?_,
    fun i => rfl, by simp, by simp⟩, List.nodup_nil, fun i => List.nodup_nil, fun i => List.Perm.refl _, by simp, ?_⟩
  · simp [sliceInit, State.withEnv, h, initialClasses]
  · exact ⟨fun _ => rfl, fun _ => rfl, fun _ => rfl, rfl, rfl, rfl⟩

theorem SliceInv.alloc (hd : DirectMap hhdmOffset) (h : SliceInv hhdmOffset s live free) {size alignment p : ℕ}
    (hr : sliceAlloc hhdmOffset size alignment s = (p, s')) :
    ∃ free', SliceInv hhdmOffset s' (if p = 0 then live else ⟨p, size, alignment⟩ :: live) free' := by
  -- a slice taken from a list that is not empty
  have htake : ∀ {t : State} {free : Fin 8 → List ℕ} {i : Fin 8} {n : ℕ} {ns : List ℕ},
      SliceInv hhdmOffset t live free → classFor initialClasses size alignment = some i → free i = n :: ns →
      popSlice i t = (p, s') →
      ∃ free', SliceInv hhdmOffset s' (if p = 0 then live else ⟨p, size, alignment⟩ :: live) free' := by
    intro t free i n ns h hi hn hpop
    have hp : p = n := by
      rw [← (h.lists.pop hn).1, hpop]
    have hpos := ((h.lists.carved i n (by simp [hn])).word hd h.lists.pages).1
    have hinv := h.pop hn (a := ⟨p, size, alignment⟩) hi hp
    rw [hpop] at hinv
    rw [if_neg (by omega)]
    exact ⟨_, hinv⟩
  rcases sliceAlloc_cases hd h.lists size alignment with hc | ⟨i, hi, ⟨hne, hc⟩ | ⟨page, pmm, q, hf, hc⟩⟩
  · obtain ⟨rfl, rfl⟩ := Prod.mk.inj (hc.symm.trans hr)
    exact ⟨free, h.failed⟩
  · obtain ⟨n, ns, hn⟩ := List.exists_cons_of_ne_nil hne
    exact htake h hi hn (hc.symm.trans hr)
  · obtain ⟨n, ns, hn⟩ := grownFree_cons i page free
    exact htake (h.grow hd hf) hi hn (hc.symm.trans hr)

theorem SliceInv.step (hd : DirectMap hhdmOffset) (h : SliceInv hhdmOffset s live free)
    (hstep : SliceStep hhdmOffset s live s' live') : ∃ free', SliceInv hhdmOffset s' live' free' := by
  cases hstep with
  | alloc hr => exact h.alloc hd hr
  | free ha =>
    obtain ⟨i, hi⟩ := h.served _ ha
    exact ⟨_, h.give hd ha hi⟩
  | freeNull size => exact ⟨free, h⟩
  | other he => exact ⟨free, h.elsewhere he⟩

theorem sliceInv_run (hd : DirectMap hhdmOffset) (hrun : SliceRun hhdmOffset s live) :
    ∃ free, SliceInv hhdmOffset s live free := by
  induction hrun with
  | init s h => exact ⟨_, sliceInv_init h⟩
  | step _ hstep ih =>
    obtain ⟨free, h⟩ := ih
    exact h.step hd hstep

theorem slices_safe (hd : DirectMap hhdmOffset) (hrun : SliceRun hhdmOffset s live) : SlicesSafe s live := by
  obtain ⟨free, h⟩ := sliceInv_run hd hrun
  refine ⟨fun i => ⟨free i, h.lists.list i, h.lists.nodup i, h.lists.carved i, fun n hn a ha => h.free_apart hn ha,
    h.counts.free_eq i, ?_⟩, fun a ha => ?_, h.live_apart, ?_, ?_, ?_⟩
  · have hlen := (h.partition i).length_eq
    rw [List.length_append, livePointers, List.length_map, ← List.countP_eq_length_filter] at hlen
    rw [h.counts.total_eq, ← hlen]
  · obtain ⟨i, hi⟩ := h.served a ha
    have hc := (h.live_slice ha hi).1
    obtain ⟨-, hpow, -, hle⟩ := classFor_some hi
    exact ⟨i, hi, hc, fits_room hi, (dvd_sixteen hpow hle).trans (hc.aligned hd h.lists.pages)⟩
  · simp only [h.counts.backing_eq, h.counts.backing_sum]
  · simp only [h.counts.total_eq, h.counts.total_sum]
  · simp only [h.counts.free_eq, h.counts.free_sum]

/-- Four free pages above a reserved one, and nothing allocated. -/
def emptyState : State :=
  Heap.init (fun _ => 0)
    ⟨Pmm.init ⟨[⟨0x1000, 0x4000, .usable⟩], 0x100000, 0x1000⟩, initialClasses, ⟨0, 0, 0, 0⟩, []⟩

theorem directMap_higherHalf : DirectMap 0xFFFF800000000000 := ⟨by decide, by decide, by decide⟩

theorem emptyState_alloc : (sliceAlloc 0xFFFF800000000000 64 16 (sliceInit emptyState)).1 = 0xFFFF800000001FC0 := by
  decide +kernel

theorem slices_safe_first : ∃ s, SliceRun 0xFFFF800000000000 s [⟨0xFFFF800000001FC0, 64, 16⟩] ∧
    SlicesSafe s [⟨0xFFFF800000001FC0, 64, 16⟩] := by
  have hrun := (SliceRun.init emptyState rfl).step
    (SliceStep.alloc (Prod.ext emptyState_alloc rfl : sliceAlloc 0xFFFF800000000000 64 16 _ = (_, _)))
  rw [if_neg (by decide)] at hrun
  exact ⟨_, hrun, slices_safe directMap_higherHalf hrun⟩

end Tori.Kalloc
