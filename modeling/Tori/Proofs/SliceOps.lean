import Tori.Sanity.Kalloc

/-! The operations of the slice allocator on its free lists. `SlicesAt hhdmOffset s free` says
that the free list of class `i` is `free i`; a page is cut, a slice is taken and a slice is
given back each by one lemma about `free`. -/

namespace Tori.Kalloc

open Word Loop Linked Heap Function

variable {page size n x q alignment : ℕ} {env env' : Env} {rs : List HeapRegion}

/-- The slices of a page, in ascending order. -/
def pageSlices (page size n : ℕ) : List ℕ := (List.range n).map fun k => page + k * size

structure SlicesAt (hhdmOffset : ℕ) (s : State) (free : Fin 8 → List ℕ) : Prop where
  pages : EnvOk hhdmOffset s.env []
  table : ∀ i, (s.env.classes i).size = classSize i ∧ (s.env.classes i).alignment = 16
  list : ∀ i, IsList ⟨(s.env.classes i).freeList, s.mem⟩ (free i)
  nodup : ∀ i, (free i).Nodup
  carved : ∀ i, ∀ n ∈ free i, Carved s.env i n

variable {hhdmOffset : ℕ} {s : State} {free : Fin 8 → List ℕ} {i j : Fin 8} {n : ℕ}

theorem pageSlices_succ (page size n : ℕ) :
    pageSlices page size (n + 1) = pageSlices page size n ++ [page + n * size] := by
  simp [pageSlices, List.range_succ]

theorem mem_pageSlices :
    x ∈ pageSlices page size n ↔ ∃ k, k < n ∧ x = page + k * size := by
  simp only [pageSlices, List.mem_map, List.mem_range, eq_comm]

theorem pageSlices_lt (hx : x ∈ pageSlices page size n) :
    page ≤ x ∧ x + size ≤ page + n * size := by
  obtain ⟨k, hk, rfl⟩ := mem_pageSlices.mp hx
  have h := Nat.mul_le_mul_right size hk
  rw [Nat.succ_mul] at h
  omega

theorem nodup_pageSlices (page n : ℕ) (hsize : 0 < size) : (pageSlices page size n).Nodup :=
  List.nodup_range.map fun _ _ h => Nat.eq_of_mul_eq_mul_right hsize (Nat.add_left_cancel h)

/-- The loop of `grow_class`: the slices are pushed one after the other. -/
theorem pushSlices {l : Store} {ns : List ℕ} (hl : IsList l ns) (hpos : 0 < page)
    (hsize : 8 ≤ size) (hroom : page + n * size ≤ 2 ^ 64)
    (hns : ∀ x ∈ ns, x < 2 ^ 64 ∧ (x + 8 ≤ page ∨ page + n * size ≤ x)) :
    IsList (forUp (pushSlice page size) n 0 l) ((pageSlices page size n).reverse ++ ns) ∧
      ∀ x, x < page ∨ page + n * size ≤ x → (forUp (pushSlice page size) n 0 l).mem x = l.mem x := by
  have hinv := forUp_inv (f := pushSlice page size)
    (P := fun k l' => IsList l' ((pageSlices page size k).reverse ++ ns) ∧
      ∀ x, x < page ∨ page + k * size ≤ x → l'.mem x = l.mem x) n 0 l ?_ ⟨by simpa [pageSlices] using hl, by simp⟩
  · rwa [Nat.zero_add] at hinv
  · rintro k l' - hk ⟨hlist, hmem⟩
    rw [Nat.zero_add] at hk
    have hle := Nat.mul_le_mul_right size hk
    rw [Nat.succ_mul] at hle
    have haddr : u64 (page + k * size) = page + k * size := u64_of_lt (by omega)
    have hnodes : ∀ x ∈ (pageSlices page size k).reverse ++ ns,
        x < 2 ^ 64 ∧ (x + 8 ≤ page + k * size ∨ page + k * size + 8 ≤ x) := by
      intro x hx
      rcases List.mem_append.mp hx with hx | hx
      · have := pageSlices_lt (List.mem_reverse.mp hx)
        omega
      · have := hns x hx
        omega
    unfold pushSlice
    rw [haddr, pageSlices_succ, List.reverse_append, List.reverse_singleton, List.singleton_append,
      List.cons_append, Nat.succ_mul]
    refine ⟨hlist.push (fun x hx => (hnodes x hx).1) (by omega) fun x hx => (hnodes x hx).2, fun x hx => ?_⟩
    exact (Mem.store64_outside _ (by omega)).trans (hmem x (by omega))

theorem EnvOk.without_heap (h : EnvOk hhdmOffset env rs) :
    EnvOk hhdmOffset env [] :=
  ⟨by simp, h.carvedPages, by simp, h.carvedOnce⟩

/-- Pages stay the slices' and the heap's own while they stay in use. -/
theorem EnvOk.keep (h : EnvOk hhdmOffset env rs)
    (hc : env'.carved = env.carved)
    (hu : ∀ q, Pmm.isPageUsed env.pmm q = true → Pmm.isPageUsed env'.pmm q = true) :
    EnvOk hhdmOffset env' rs := by
  refine ⟨fun r hr x hx => ?_, ?_, ?_, ?_⟩
  · obtain ⟨h1, h2, h3⟩ := h.regionPages r hr x hx
    exact ⟨h1, h2, hu _ h3⟩
  · rw [hc]
    intro c hc
    obtain ⟨q, h1, h2, h3⟩ := h.carvedPages c hc
    exact ⟨q, h1, h2, hu q h3⟩
  · rw [hc]
    exact h.carvedHeap
  · rw [hc]
    exact h.carvedOnce

theorem Carved.word (hd : DirectMap hhdmOffset)
    (h : EnvOk hhdmOffset env rs) (hn : Carved env i n) : n ≠ 0 ∧ n < 2 ^ 64 := by
  obtain ⟨page, -, h1, h2, h3, h4⟩ := hn.bounds hd h
  have := (classSize_spec i).1
  omega

theorem Carved.words_apart (h : EnvOk hhdmOffset env rs) {m : ℕ}
    (hm : Carved env i m) (hn : Carved env j n) (hne : m ≠ n) : m + 8 ≤ n ∨ n + 8 ≤ m := by
  have h1 := (classSize_spec i).1
  have h2 := (classSize_spec j).1
  have := hm.apart h hn hne
  omega

theorem Carved.class_eq (h : EnvOk hhdmOffset env rs)
    (hi : Carved env i n) (hj : Carved env j n) : i = j := by
  obtain ⟨page, k, hp, hk, rfl⟩ := hi
  obtain ⟨page', k', hp', hk', he⟩ := hj
  obtain ⟨q, hq, -, -⟩ := h.carvedPages _ hp
  obtain ⟨q', hq', -, -⟩ := h.carvedPages _ hp'
  have h1 := slot_end hk
  have h2 := slot_end hk'
  have h3 := (classSize_spec i).1
  have h4 := (classSize_spec j).1
  have hpage : page = page' := by
    simp only [Pmm.pageSize] at *
    omega
  simpa using congrArg Prod.snd (h.carvedOnce _ hp _ hp' hpage)

theorem Carved.page_used (h : EnvOk hhdmOffset env rs) (hn : Carved env i n)
    (h1 : n ≤ x) (h2 : x < n + classSize i) :
    Pmm.isPageUsed env.pmm ((x - hhdmOffset) / Pmm.pageSize) = true := by
  obtain ⟨page, k, hp, hk, rfl⟩ := hn
  obtain ⟨q, hq, -, hu⟩ := h.carvedPages _ hp
  have hend := slot_end hk
  have hxq : (x - hhdmOffset) / Pmm.pageSize = q := by
    simp only [Pmm.pageSize] at *
    omega
  rwa [hxq]

theorem Carved.mono (h : env.carved ⊆ env'.carved) (hn : Carved env i n) :
    Carved env' i n := by
  obtain ⟨page, k, hp, hk, he⟩ := hn
  exact ⟨page, k, h hp, hk, he⟩

theorem SlicesAt.lt (hd : DirectMap hhdmOffset) (h : SlicesAt hhdmOffset s free) (hn : n ∈ free i) :
    n < 2 ^ 64 := ((h.carved i n hn).word hd h.pages).2

/-- One class changes; the free slices of the others keep their words. -/
theorem SlicesAt.change {s' : State} {c : SizeClass} {ns : List ℕ} (h : SlicesAt hhdmOffset s free)
    (hpages : EnvOk hhdmOffset s'.env []) (hclasses : s'.env.classes = update s.env.classes i c)
    (hcarved : s.env.carved ⊆ s'.env.carved)
    (hm : ∀ j, j ≠ i → ∀ n ∈ free j, ∀ x, n ≤ x → x < n + 8 → s'.mem x = s.mem x)
    (hc : c.size = classSize i ∧ c.alignment = 16) (hlist : IsList ⟨c.freeList, s'.mem⟩ ns) (hnodup : ns.Nodup)
    (hns : ∀ n ∈ ns, Carved s'.env i n) : SlicesAt hhdmOffset s' (update free i ns) := by
  refine ⟨hpages, fun j => ?_, fun j => ?_, fun j => ?_, fun j n hn => ?_⟩
  all_goals by_cases hj : j = i
  · rw [hclasses, hj, update_self]
    exact hc
  · rw [hclasses, update_of_ne hj]
    exact h.table j
  · rw [hclasses, hj, update_self, update_self]
    exact hlist
  · rw [hclasses, update_of_ne hj, update_of_ne hj]
    exact list_congr (h.list j) (hm j hj)
  · rw [hj, update_self]
    exact hnodup
  · rw [update_of_ne hj]
    exact h.nodup j
  · rw [hj, update_self] at hn
    rw [hj]
    exact hns n hn
  · rw [update_of_ne hj] at hn
    exact (h.carved j n hn).mono hcarved

/-! ### Cutting a page -/

/-- The state after `grow_class` has cut `page`. -/
def grown (i : Fin 8) (page : ℕ) (pmm : Pmm.State) (s : State) : State :=
  let c := s.env.classes i
  let sliceCount := Pmm.pageSize / c.size
  let l := forUp (pushSlice page c.size) sliceCount 0 ⟨c.freeList, s.mem⟩
  { s with
    mem := l.mem
    env :=
      { pmm := pmm
        classes := update s.env.classes i
          { c with
            freeList := l.head
            backingPages := inc c.backingPages
            totalSlices := u64 (c.totalSlices + sliceCount)
            freeSlices := u64 (c.freeSlices + sliceCount) }
        stats :=
          { s.env.stats with
            backingPages := inc s.env.stats.backingPages
            totalSlices := u64 (s.env.stats.totalSlices + sliceCount)
            freeSlices := u64 (s.env.stats.freeSlices + sliceCount) }
        carved := (page, i) :: s.env.carved } }

def countFailure (s : State) : State :=
  s.withEnv { s.env with stats :=
    { s.env.stats with failedAllocations := inc s.env.stats.failedAllocations } }

/-- `page` is the direct-map address of a page that was free and is now in use. -/
structure Fresh (hhdmOffset page : ℕ) (pmm pmm' : Pmm.State) (q : ℕ) : Prop where
  page_eq : page = hhdmOffset + q * Pmm.pageSize
  lt : q < Pmm.maxManagedPages
  free : Pmm.isPageUsed pmm q = false
  used : Pmm.isPageUsed pmm' q = true
  others : ∀ r, r ≠ q → Pmm.pageState pmm' r = Pmm.pageState pmm r

theorem growClass_cases (hd : DirectMap hhdmOffset) (i : Fin 8) (s : State) :
    growClass hhdmOffset i s = (false, countFailure s) ∨
      ∃ page pmm q, growClass hhdmOffset i s = (true, grown i page pmm s) ∧
        Fresh hhdmOffset page s.env.pmm pmm q := by
  obtain ⟨a, pmm, halloc⟩ : ∃ a pmm, Pmm.allocPage s.env.pmm = (a, pmm) := ⟨_, _, rfl⟩
  by_cases ha : a = Pmm.invalidPhysicalAddress
  · subst ha
    have hp := Pmm.allocPages_fail halloc
    subst hp
    left
    simp only [growClass, halloc, if_true]
    rfl
  · obtain ⟨q, rfl, -, hq, hfree, hstate, -⟩ := Pmm.allocPages_spec halloc ha
    have haddr : u64 (q * Pmm.pageSize + hhdmOffset) = q * Pmm.pageSize + hhdmOffset := by
      have := hd.room
      simp only [Pmm.pageSize, Pmm.maxManagedPages] at *
      exact u64_of_lt (by omega)
    have hq1 := hstate q
    rw [if_pos ⟨le_rfl, Nat.lt_succ_self q⟩] at hq1
    refine Or.inr ⟨_, pmm, q, ?_, Nat.add_comm _ _, by omega, hfree q le_rfl (Nat.lt_succ_self q),
      congrArg Prod.fst hq1, fun r hr => ?_⟩
    · simp only [growClass, halloc, if_neg ha, haddr]
      rfl
    · rw [hstate r, if_neg (by omega)]

theorem Fresh.kept {pmm pmm' : Pmm.State} {r : ℕ} (h : Fresh hhdmOffset page pmm pmm' q)
    (hr : Pmm.isPageUsed pmm r = true) : Pmm.isPageUsed pmm' r = true := by
  have hne : r ≠ q := by
    rintro rfl
    simp [h.free] at hr
  rw [(Pmm.pageState_ext (h.others r hne)).1, hr]

/-- A page that was free is no carved page and no page of the heap. -/
theorem EnvOk.carve (h : EnvOk hhdmOffset env rs)
    (hf : Fresh hhdmOffset page env.pmm env'.pmm q) (hc : env'.carved = (page, i) :: env.carved) :
    page ∉ env.carved.map Prod.fst ∧ EnvOk hhdmOffset env' rs := by
  have hnew : ∀ c ∈ env.carved, c.1 ≠ page := by
    intro c hc he
    obtain ⟨q', h1, -, h3⟩ := h.carvedPages c hc
    have hqq : q' = q := by
      have := hf.page_eq
      simp only [Pmm.pageSize] at *
      omega
    rw [hqq, hf.free] at h3
    exact Bool.false_ne_true h3
  refine ⟨fun hmem => ?_, fun r hr x hx => ?_, ?_, ?_, ?_⟩
  · obtain ⟨c, hc, he⟩ := List.mem_map.mp hmem
    exact hnew c hc he
  · obtain ⟨h1, h2, h3⟩ := h.regionPages r hr x hx
    exact ⟨h1, h2, hf.kept h3⟩
  · rw [hc, List.forall_mem_cons]
    refine ⟨⟨q, hf.page_eq, hf.lt, hf.used⟩, fun c hc => ?_⟩
    obtain ⟨q', h1, h2, h3⟩ := h.carvedPages c hc
    exact ⟨q', h1, h2, hf.kept h3⟩
  · rw [hc, List.forall_mem_cons]
    refine ⟨fun r hr x hx hin => ?_, h.carvedHeap⟩
    obtain ⟨h1, -, h2⟩ := h.regionPages r hr x hx
    have hxq : (x - hhdmOffset) / Pmm.pageSize = q := by
      have := hf.page_eq
      simp only [Pmm.pageSize] at *
      omega
    rw [hxq, hf.free] at h2
    exact Bool.false_ne_true h2
  · rw [hc]
    intro c hc d hd hcd
    rcases List.mem_cons.mp hc with rfl | hc <;> rcases List.mem_cons.mp hd with rfl | hd
    · rfl
    · exact absurd hcd.symm (hnew d hd)
    · exact absurd hcd (hnew c hc)
    · exact h.carvedOnce c hc d hd hcd

theorem Carved.outside (h : EnvOk hhdmOffset env rs) (hn : Carved env i n)
    (hpage : page = hhdmOffset + q * Pmm.pageSize) (hnew : page ∉ env.carved.map Prod.fst) :
    n + classSize i ≤ page ∨ page + Pmm.pageSize ≤ n := by
  obtain ⟨page', k, hp, hk, rfl⟩ := hn
  obtain ⟨q', hq', -, -⟩ := h.carvedPages _ hp
  have hne : page' ≠ page := by
    rintro rfl
    exact hnew (List.mem_map_of_mem hp)
  have h1 := slot_end hk
  simp only [Pmm.pageSize] at *
  omega

/-- The free lists after `grow_class` for class `i`. -/
def grownFree (i : Fin 8) (page : ℕ) (free : Fin 8 → List ℕ) : Fin 8 → List ℕ :=
  update free i ((pageSlices page (classSize i) (Pmm.pageSize / classSize i)).reverse ++ free i)

theorem SlicesAt.grow (hd : DirectMap hhdmOffset) (h : SlicesAt hhdmOffset s free)
    {pmm : Pmm.State} (hf : Fresh hhdmOffset page s.env.pmm pmm q) :
    page ∉ s.env.carved.map Prod.fst ∧ SlicesAt hhdmOffset (grown i page pmm s) (grownFree i page free) ∧
      ∀ x, x < page ∨ page + Pmm.pageSize ≤ x → (grown i page pmm s).mem x = s.mem x := by
  obtain ⟨hnew, hpages⟩ : page ∉ s.env.carved.map Prod.fst ∧
      EnvOk hhdmOffset (grown i page pmm s).env [] := h.pages.carve hf rfl
  obtain ⟨hmin, -, hall⟩ := classSize_spec i
  have hbounds : 0 < page ∧ page + Pmm.pageSize ≤ 2 ^ 64 := by
    have h1 := hf.page_eq
    have h2 := hf.lt
    have h3 := hd.pos
    have h4 := hd.room
    simp only [Pmm.pageSize, Pmm.maxManagedPages] at *
    omega
  obtain ⟨hlist, hmem⟩ := pushSlices (h.list i) hbounds.1
    (show 8 ≤ classSize i by omega)
    (by rw [hall]; exact hbounds.2) fun x hx => by
      have hc := h.carved i x hx
      have hout := hc.outside h.pages hf.page_eq hnew
      rw [hall]
      exact ⟨(hc.word hd h.pages).2, by omega⟩
  rw [hall] at hmem
  have hgrown : (grown i page pmm s).mem =
      (forUp (pushSlice page (classSize i)) (Pmm.pageSize / classSize i) 0
        ⟨(s.env.classes i).freeList, s.mem⟩).mem := by
    rw [grown, (h.table i).1]
  have htable := h.table i
  refine ⟨hnew, h.change hpages rfl (List.subset_cons_self _ _) (fun j _ n hn x h1 h2 => ?_) htable ?_ ?_ fun n hn => ?_,
    fun x hx => ?_⟩
  · have hout := (h.carved j n hn).outside h.pages hf.page_eq hnew
    have := (classSize_spec j).1
    rw [hgrown]
    exact hmem x (by omega)
  · rw [hgrown, htable.1]
    exact hlist
  · simp only [List.nodup_append, List.nodup_reverse]
    refine ⟨nodup_pageSlices _ _ (by omega), h.nodup i, fun x hx y hy he => ?_⟩
    subst he
    have h1 := pageSlices_lt (List.mem_reverse.mp hx)
    have h2 := (h.carved i x hy).outside h.pages hf.page_eq hnew
    rw [hall] at h1
    omega
  · simp only [List.mem_append, List.mem_reverse] at hn
    rcases hn with hn | hn
    · obtain ⟨k, hk, he⟩ := mem_pageSlices.mp hn
      exact ⟨page, k, List.mem_cons_self, hk, he⟩
    · exact (h.carved i n hn).mono (List.subset_cons_self _ _)
  · rw [hgrown]
    exact hmem x hx

/-! ### Taking and giving back a slice -/

theorem SlicesAt.pop (h : SlicesAt hhdmOffset s free) {ns : List ℕ} (hi : free i = n :: ns) :
    (popSlice i s).1 = n ∧ SlicesAt hhdmOffset (popSlice i s).2 (update free i ns) := by
  have hlist := h.list i
  rw [hi] at hlist
  obtain ⟨hhead, -, htail⟩ := hlist
  dsimp only at hhead htail
  have hnodup := h.nodup i
  rw [hi] at hnodup
  refine ⟨hhead, h.change (h.pages.keep rfl fun _ hq => hq) rfl (List.Subset.refl _) (fun _ _ _ _ _ _ _ => rfl) (h.table i) ?_
    hnodup.of_cons fun x hx => h.carved i x (hi ▸ List.mem_cons_of_mem _ hx)⟩
  rw [hhead]
  exact htail

theorem SlicesAt.give (hd : DirectMap hhdmOffset) (h : SlicesAt hhdmOffset s free)
    (hclass : classFor s.env.classes size 8 = some i) (hn : Carved s.env i n) (hnew : n ∉ free i) :
    SlicesAt hhdmOffset (sliceFree n size s) (update free i (n :: free i)) ∧
      ∀ x, x < n ∨ n + 8 ≤ x → (sliceFree n size s).mem x = s.mem x := by
  obtain ⟨hpos, hlt⟩ := hn.word hd h.pages
  have hfree : sliceFree n size s = { s with
      mem := s.mem.store64 n (s.env.classes i).freeList
      env := { s.env with
        classes := update s.env.classes i
          { s.env.classes i with freeList := n, freeSlices := inc (s.env.classes i).freeSlices }
        stats := { s.env.stats with freeSlices := inc s.env.stats.freeSlices } } } := by
    rw [sliceFree, if_neg hpos, hclass]
  rw [hfree]
  refine ⟨h.change (h.pages.keep rfl fun _ hq => hq) rfl (List.Subset.refl _) (fun j hj x hx y h1 h2 => ?_) (h.table i)
    ((h.list i).push (fun x hx => h.lt hd hx) hpos fun x hx => ?_) (List.nodup_cons.mpr ⟨hnew, h.nodup i⟩)
    (List.forall_mem_cons.mpr ⟨hn, h.carved i⟩), fun x hx => Mem.store64_outside _ hx⟩
  · have hne : x ≠ n := by
      rintro rfl
      exact hj ((h.carved j x hx).class_eq h.pages hn)
    have := (h.carved j x hx).words_apart h.pages hn hne
    exact Mem.store64_outside _ (by omega)
  · exact (h.carved i x hx).words_apart h.pages hn fun he => hnew ((show x = n from he) ▸ hx)

/-! ### Size classes -/

/-- `class_for` reads only the constant fields of the table. -/
theorem classFor_table {classes : Fin 8 → SizeClass}
    (h : ∀ i, (classes i).size = classSize i ∧ (classes i).alignment = 16) (size alignment : ℕ) :
    classFor classes size alignment = classFor initialClasses size alignment := by
  unfold classFor initialClasses
  simp only [h]

theorem classFor_some (h : classFor initialClasses size alignment = some i) :
    size ≠ 0 ∧ isPowerOfTwo alignment = true ∧ size ≤ classSize i ∧ alignment ≤ 16 := by
  unfold classFor at h
  by_cases h0 : size = 0 ∨ isPowerOfTwo alignment = false
  · rw [if_pos h0] at h
    exact absurd h (by simp)
  · rw [if_neg h0] at h
    have hi := List.find?_some h
    replace hi := of_decide_eq_true hi
    simp only [initialClasses] at hi
    rw [not_or, Bool.not_eq_false] at h0
    refine ⟨h0.1, h0.2, ?_, hi.2⟩
    split_ifs at hi <;> omega

/-- `free` finds the class `alloc` chose, whatever alignment was asked for. -/
theorem classFor_free (h : classFor initialClasses size alignment = some i) :
    classFor initialClasses size 8 = some i := by
  obtain ⟨h0, h1, -, h2⟩ := classFor_some h
  rw [classFor, if_neg (by simp [h0, h1])] at h
  rw [classFor, if_neg (by simp [h0]; decide), ← h]
  simp [initialClasses, h2]

/-- A power of two that a class accepts divides the size of the class. -/
theorem dvd_sixteen (h : isPowerOfTwo alignment = true) (hle : alignment ≤ 16) :
    alignment ∣ 16 := by
  interval_cases alignment <;> revert h <;> decide

theorem sixteen_dvd_classSize (i : Fin 8) : 16 ∣ classSize i := by
  fin_cases i <;> decide

theorem Carved.aligned (hd : DirectMap hhdmOffset)
    (h : EnvOk hhdmOffset env rs) (hn : Carved env i n) : 16 ∣ n := by
  obtain ⟨page, k, hp, -, rfl⟩ := hn
  obtain ⟨q, hq, -, -⟩ := h.carvedPages _ hp
  have hoff := hd.aligned
  refine dvd_add ?_ (Dvd.dvd.mul_left (sixteen_dvd_classSize i) k)
  simp only [Pmm.pageSize] at *
  omega

theorem sliceAlloc_cases (hd : DirectMap hhdmOffset) (h : SlicesAt hhdmOffset s free) (size alignment : ℕ) :
    sliceAlloc hhdmOffset size alignment s = (0, countFailure s) ∨
      ∃ i, classFor initialClasses size alignment = some i ∧
        (free i ≠ [] ∧ sliceAlloc hhdmOffset size alignment s = popSlice i s ∨
          ∃ page pmm q, Fresh hhdmOffset page s.env.pmm pmm q ∧
            sliceAlloc hhdmOffset size alignment s = popSlice i (grown i page pmm s)) := by
  unfold sliceAlloc
  rw [classFor_table h.table]
  cases hc : classFor initialClasses size alignment with
  | none => exact Or.inl rfl
  | some i =>
    dsimp only
    by_cases hz : (s.env.classes i).freeList = 0
    · rw [if_pos hz]
      rcases growClass_cases hd i s with hg | ⟨page, pmm, q, hg, hf⟩
      · left
        rw [hg]
      · right
        rw [hg]
        exact ⟨i, rfl, Or.inr ⟨page, pmm, q, hf, rfl⟩⟩
    · rw [if_neg hz]
      refine Or.inr ⟨i, rfl, Or.inl ⟨fun he => hz ?_, rfl⟩⟩
      have := h.list i
      rw [he] at this
      exact this

/-- Only the slices' own data and the words of the free slices matter. -/
theorem SlicesAt.frame {s' : State} (h : SlicesAt hhdmOffset s free) (hpages : EnvOk hhdmOffset s'.env [])
    (hclasses : s'.env.classes = s.env.classes) (hcarved : s'.env.carved = s.env.carved)
    (hm : ∀ i, ∀ n ∈ free i, ∀ x, n ≤ x → x < n + 8 → s'.mem x = s.mem x) : SlicesAt hhdmOffset s' free := by
  refine ⟨hpages, by rw [hclasses]; exact h.table, fun i => ?_, h.nodup, fun i n hn => ?_⟩
  · rw [hclasses]
    exact list_congr (h.list i) (hm i)
  · exact (h.carved i n hn).mono (by rw [hcarved]; exact List.Subset.refl _)

theorem SlicesAt.failed (h : SlicesAt hhdmOffset s free) : SlicesAt hhdmOffset (countFailure s) free :=
  ⟨h.pages.keep rfl fun _ hq => hq, h.table, h.list, h.nodup, h.carved⟩

/-- A page holds at least two slices. -/
theorem grownFree_cons (i : Fin 8) (page : ℕ) (free : Fin 8 → List ℕ) :
    ∃ n ns, grownFree i page free i = n :: ns := by
  have hpos : 0 < Pmm.pageSize / classSize i := by
    fin_cases i <;> decide
  obtain ⟨k, hk⟩ := Nat.exists_eq_succ_of_ne_zero hpos.ne'
  rw [grownFree, update_self, hk, pageSlices_succ, List.reverse_append]
  exact ⟨_, _, rfl⟩

end Tori.Kalloc
