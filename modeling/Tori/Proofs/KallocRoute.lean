import Tori.Proofs.HeapOdd
import Tori.Proofs.SliceOps

/-! Which requests `kfree` gives back to the layer `kalloc` took them from. `kalloc` decides by
size and alignment, `kfree` by size and address: a request of at most 2048 bytes with a larger
alignment comes from the heap and goes to the slices. -/

namespace Tori.Kalloc

open Word Loop Linked Heap Function

variable {page n alignment : ℕ} {pmm pmm' : Pmm.State}

inductive Layer where
  | slices | heap | pages
  deriving DecidableEq

/-- The branch `kalloc` takes. -/
def servedBy (size alignment : ℕ) : Layer :=
  if size ≤ 2048 ∧ alignment ≤ 16 then .slices
  else if size ≤ heapThreshold then .heap
  else .pages

def SlicesCarved (s : State) : Prop :=
  ∀ i, ∃ ns, IsList ⟨(s.env.classes i).freeList, s.mem⟩ ns ∧ ∀ n ∈ ns, Carved s.env i n

/-- The bytes from `p` on are free in the layer: `p` is on a free list of slices, or a free block
of a well-formed heap has them, or their pages are free. -/
def FreeIn (hhdmOffset p size : ℕ) (s : State) : Layer → Prop
  | .slices => ∃ i ns, IsList ⟨(s.env.classes i).freeList, s.mem⟩ ns ∧ p ∈ ns
  | .heap => ∃ bs, HeapAt s bs ∧ ∃ b ∈ bs, b.use = none ∧ ∀ x, p ≤ x → x < p + size → b.Has x
  | .pages => ∀ x, p ≤ x → x < p + size → hhdmOffset ≤ x ∧
      Pmm.isPageUsed s.env.pmm ((x - hhdmOffset) / Pmm.pageSize) = false

structure Returned (hhdmOffset p size : ℕ) (layer : Layer) (s : State) : Prop where
  carved : SlicesCarved s
  free : FreeIn hhdmOffset p size s layer

variable {hhdmOffset : ℕ} {s s₀ s₁ s₂ : State} {free : Fin 8 → List ℕ} {i : Fin 8} {p size j : ℕ} {m : Mem}

/-! ### The page allocator under the heap -/

/-- The pages are accounted for and the slices' own data are those of `s₀`. -/
structure EnvOf (hhdmOffset : ℕ) (s₀ : State) (env : Env) (rs : List HeapRegion) : Prop where
  ok : EnvOk hhdmOffset env rs
  classes : env.classes = s₀.env.classes
  carved : env.carved = s₀.env.carved

/-- A run of pages that was free and is now in use. -/
structure FreshRun (page n : ℕ) (pmm pmm' : Pmm.State) : Prop where
  le : page + n ≤ Pmm.maxManagedPages
  free : ∀ q, page ≤ q → q < page + n → Pmm.isPageUsed pmm q = false
  state : ∀ q, Pmm.pageState pmm' q = if page ≤ q ∧ q < page + n then (true, 1) else Pmm.pageState pmm q

variable {q : ℕ} {rs : List HeapRegion} {s' : State} {b : Block} {bs : Set Block}

theorem FreshRun.used (h : FreshRun page n pmm pmm') :
    Pmm.isPageUsed pmm' q = true ↔ (page ≤ q ∧ q < page + n) ∨ Pmm.isPageUsed pmm q = true := by
  have hq := congrArg Prod.fst (h.state q)
  by_cases hin : page ≤ q ∧ q < page + n
  · rw [if_pos hin] at hq
    exact ⟨fun _ => Or.inl hin, fun _ => hq⟩
  · rw [if_neg hin] at hq
    rw [show Pmm.isPageUsed pmm' q = Pmm.isPageUsed pmm q from hq]
    exact ⟨Or.inr, fun h => h.resolve_left hin⟩

theorem FreshRun.give_back (h : FreshRun page n pmm pmm') (hn : 0 < n)
    (q : ℕ) : Pmm.isPageUsed (Pmm.freePages (page * Pmm.pageSize) n pmm') q = Pmm.isPageUsed pmm q := by
  have hq := congrArg Prod.fst (Pmm.pageState_freePages pmm' page n hn h.le q)
  rw [h.state q] at hq
  by_cases hin : page ≤ q ∧ q < page + n
  · rw [if_pos hin, if_pos hin] at hq
    exact hq.trans (h.free q hin.1 hin.2).symm
  · rw [if_neg hin, if_neg hin] at hq
    exact hq

theorem allocPages_run {a : ℕ} (h : Pmm.allocPages n pmm = (a, pmm'))
    (ha : a ≠ Pmm.invalidPhysicalAddress) :
    ∃ page, a = page * Pmm.pageSize ∧ 0 < n ∧ FreshRun page n pmm pmm' := by
  obtain ⟨page, h1, h2, h3, h4, h5, -⟩ := Pmm.allocPages_spec h ha
  exact ⟨page, h1, h2, h3, h4, h5⟩

theorem DirectMap.addr (hd : DirectMap hhdmOffset) (hq : q + n ≤ Pmm.maxManagedPages) :
    u64 (q * Pmm.pageSize + hhdmOffset) = q * Pmm.pageSize + hhdmOffset ∧
      q * Pmm.pageSize + hhdmOffset + n * Pmm.pageSize ≤ 2 ^ 64 - 2 ^ 32 := by
  have := hd.room
  simp only [Pmm.pageSize, Pmm.maxManagedPages] at *
  exact ⟨u64_of_lt (by omega), by omega⟩

theorem page_of_run {x : ℕ} (h1 : page * Pmm.pageSize + hhdmOffset ≤ x)
    (h2 : x < page * Pmm.pageSize + hhdmOffset + n * Pmm.pageSize) :
    page ≤ (x - hhdmOffset) / Pmm.pageSize ∧ (x - hhdmOffset) / Pmm.pageSize < page + n := by
  simp only [Pmm.pageSize] at *
  omega

/-- A run of free pages is apart from the heap, and carrying it over to the heap keeps the
pages accounted for. -/
theorem EnvOk.newRegion (hd : DirectMap hhdmOffset) {env env' : Env}
    (h : EnvOk hhdmOffset env rs) (hrun : FreshRun page growPageCount env.pmm env'.pmm)
    (hc : env'.carved = env.carved) :
    NewRegion rs (page * Pmm.pageSize + hhdmOffset) ∧
      EnvOk hhdmOffset env' (rs ++ [⟨page * Pmm.pageSize + hhdmOffset,
        page * Pmm.pageSize + hhdmOffset + regionSize⟩]) := by
  obtain ⟨-, hend⟩ := hd.addr hrun.le
  have hsize : regionSize = growPageCount * Pmm.pageSize := rfl
  have hal := hd.aligned
  have hpos := hd.pos
  have hnew : ∀ x, page * Pmm.pageSize + hhdmOffset ≤ x → x < page * Pmm.pageSize + hhdmOffset + regionSize →
      Pmm.isPageUsed env.pmm ((x - hhdmOffset) / Pmm.pageSize) = false := fun x h1 h2 => by
    obtain ⟨h3, h4⟩ := page_of_run h1 (by rwa [hsize] at h2)
    exact hrun.free _ h3 h4
  refine ⟨⟨?_, by omega, ?_, fun r hr x hx hin => ?_⟩, fun r hr x hx => ?_, ?_, ?_, ?_⟩
  · simp only [Pmm.pageSize] at *
    omega
  · rw [hsize]
    omega
  · have hu := (h.regionPages r hr x hx).2.2
    rw [hnew x hin.1 hin.2] at hu
    exact Bool.false_ne_true hu
  · rcases List.mem_append.mp hr with hr | hr
    · obtain ⟨h1, h2, h3⟩ := h.regionPages r hr x hx
      exact ⟨h1, h2, hrun.used.mpr (Or.inr h3)⟩
    · obtain rfl := List.mem_singleton.mp hr
      obtain ⟨h3, h4⟩ := page_of_run hx.1 (by have := hx.2; rwa [hsize] at this)
      have := hrun.le
      exact ⟨by have := hx.1; dsimp only at this; omega, by omega, hrun.used.mpr (Or.inl ⟨h3, h4⟩)⟩
  · rw [hc]
    intro c hc
    obtain ⟨q, h1, h2, h3⟩ := h.carvedPages c hc
    exact ⟨q, h1, h2, hrun.used.mpr (Or.inr h3)⟩
  · rw [hc]
    intro c hc r hr x hx hin
    rcases List.mem_append.mp hr with hr | hr
    · exact h.carvedHeap c hc r hr x hx hin
    · obtain rfl := List.mem_singleton.mp hr
      obtain ⟨q, h1, -, h3⟩ := h.carvedPages c hc
      have hq : (x - hhdmOffset) / Pmm.pageSize = q := by
        simp only [Pmm.pageSize] at *
        omega
      rw [← hq, hnew x hx.1 hx.2] at h3
      exact Bool.false_ne_true h3
  · rw [hc]
    exact h.carvedOnce

theorem supply_backing (hd : DirectMap hhdmOffset) (s₀ : State) :
    Supply (backing hhdmOffset) (EnvOf hhdmOffset s₀) := by
  have key : ∀ env : Env, (Pmm.allocPages growPageCount env.pmm).1 ≠ Pmm.invalidPhysicalAddress →
      ∃ page, (Pmm.allocPages growPageCount env.pmm).1 = page * Pmm.pageSize ∧
        FreshRun page growPageCount env.pmm (Pmm.allocPages growPageCount env.pmm).2 := fun env hok => by
    obtain ⟨page, h1, -, h3⟩ := allocPages_run Prod.mk.eta.symm hok
    exact ⟨page, h1, h3⟩
  have taken : ∀ (env : Env) {page : ℕ}, FreshRun page growPageCount env.pmm (Pmm.allocPages growPageCount env.pmm).2 →
      FreshRun page growPageCount env.pmm
        ({ env with pmm := (Pmm.allocPages growPageCount env.pmm).2 } : Env).pmm := fun _ _ h => h
  refine ⟨fun env rs h hf => ?_, fun env rs h hok => ?_, fun env rs h hok => ?_, fun env rs h hok => ?_⟩
  · have hsame : (Pmm.allocPages growPageCount env.pmm).2 = env.pmm := Pmm.allocPages_fail (Prod.ext hf rfl)
    dsimp only [backing]
    rw [hsame]
    exact h
  · obtain ⟨page, ha, hrun⟩ := key env hok
    dsimp only [backing]
    rw [ha, (hd.addr hrun.le).1]
    exact (h.ok.newRegion hd (taken env hrun) rfl).1
  · obtain ⟨page, ha, hrun⟩ := key env hok
    dsimp only [backing]
    rw [ha, (hd.addr hrun.le).1]
    exact ⟨(h.ok.newRegion hd (taken env hrun) rfl).2, h.classes, h.carved⟩
  · obtain ⟨page, ha, hrun⟩ := key env hok
    dsimp only [backing]
    rw [ha]
    refine ⟨h.ok.keep rfl fun q hq => ?_, h.classes, h.carved⟩
    rw [hrun.give_back (by decide), hq]

/-! ### Slices -/

theorem Ok.slices (h : Ok hhdmOffset s) : ∃ free, SlicesAt hhdmOffset s free := by
  choose free hfree using h.lists
  exact ⟨free, h.env.without_heap, h.table, fun i => (hfree i).1, fun i => (hfree i).2.1, fun i => (hfree i).2.2⟩

theorem SlicesAt.slicesCarved (h : SlicesAt hhdmOffset s free) : SlicesCarved s :=
  fun i => ⟨free i, h.list i, h.carved i⟩

section

variable (hd : DirectMap hhdmOffset)
include hd

/-- A slice that is taken, written by its client and given back. -/
theorem SlicesAt.take_give (h : SlicesAt hhdmOffset s free) {ns : List ℕ}
    (hn : free i = n :: ns) (hi : classFor initialClasses size alignment = some i)
    (hpop : popSlice i s = (p, s₁)) (hm : ∀ x, x < p ∨ p + size ≤ x → m x = s₁.mem x) :
    Returned hhdmOffset p size .slices (sliceFree p size { s₁ with mem := m }) := by
  obtain ⟨hp, h₁⟩ := h.pop hn
  rw [hpop] at hp h₁
  dsimp only at hp h₁
  have hcarved : Carved s₁.env i p := by
    have hc := h.carved i n (by simp [hn])
    rw [hp]
    refine hc.mono ?_
    rw [show s₁ = (popSlice i s).2 by rw [hpop]]
    exact List.Subset.refl _
  have hnew : p ∉ update free i ns i := by
    have hnodup := h.nodup i
    rw [hn] at hnodup
    rw [update_self, hp]
    exact (List.nodup_cons.mp hnodup).1
  have hfit := (classFor_some hi).2.2.1
  -- the client's bytes are in its own slice
  have hwritten : SlicesAt hhdmOffset { s₁ with mem := m } (update free i ns) := by
    refine h₁.frame h₁.pages rfl rfl fun k x hx y hy1 hy2 => hm y ?_
    have hc := h₁.carved k x hx
    have hne : x ≠ p := by
      rintro rfl
      obtain rfl := hc.class_eq h₁.pages hcarved
      exact hnew hx
    have hap := hc.apart h₁.pages hcarved hne
    have := (classSize_spec k).1
    omega
  have hclass : classFor s₁.env.classes size 8 = some i := by
    rw [classFor_table h₁.table]
    exact classFor_free hi
  obtain ⟨h₂, -⟩ := hwritten.give hd hclass hcarved hnew
  refine ⟨h₂.slicesCarved, i, p :: ns, ?_, List.mem_cons_self⟩
  have := h₂.list i
  rwa [update_self, update_self] at this

theorem sliceAlloc_returned (h : Ok hhdmOffset s)
    (hcall : sliceAlloc hhdmOffset size alignment s = (p, s₁)) (hp : p ≠ 0)
    (hm : ∀ x, x < p ∨ p + size ≤ x → m x = s₁.mem x) :
    Returned hhdmOffset p size .slices (sliceFree p size { s₁ with mem := m }) := by
  obtain ⟨free, h⟩ := h.slices
  rcases sliceAlloc_cases hd h size alignment with hc | ⟨i, hi, ⟨hne, hc⟩ | ⟨page, pmm, q, hf, hc⟩⟩
  · exact absurd (congrArg Prod.fst (hcall.symm.trans hc)) hp
  · obtain ⟨n, ns, hn⟩ := List.exists_cons_of_ne_nil hne
    exact h.take_give hd hn hi (hc.symm.trans hcall) hm
  · obtain ⟨n, ns, hn⟩ := grownFree_cons i page free
    exact (h.grow hd hf).2.1.take_give hd hn hi (hc.symm.trans hcall) hm

/-! ### Pages -/

theorem pages_returned (h : Ok hhdmOffset s) (hlarge : heapThreshold < size)
    (hlt : size < 2 ^ 64) (hcall : kalloc hhdmOffset size (2 ^ j) s = some (p, s₁)) (hp : p ≠ 0)
    (hm : ∀ x, x < p ∨ p + size ≤ x → m x = s₁.mem x) :
    ∃ s₂, kfree hhdmOffset p size { s₁ with mem := m } = some s₂ ∧ Returned hhdmOffset p size .pages s₂ := by
  have hth : heapThreshold = 1048576 := rfl
  obtain ⟨free, hslices⟩ := h.slices
  rw [kalloc, if_neg (by omega), if_neg (by omega), if_neg (by omega)] at hcall
  split_ifs at hcall with hal
  · exact absurd (congrArg Prod.fst (Option.some.inj hcall)).symm hp
  obtain ⟨a, pmm, halloc⟩ : ∃ a pmm, Pmm.allocPages (pageCountForSize size) s.env.pmm = (a, pmm) := ⟨_, _, rfl⟩
  rw [halloc] at hcall
  dsimp only at hcall
  split_ifs at hcall with ha
  · exact absurd (congrArg Prod.fst (Option.some.inj hcall)).symm hp
  obtain ⟨page, rfl, hn, hrun⟩ := allocPages_run halloc ha
  obtain ⟨haddr, hend⟩ := hd.addr hrun.le
  rw [haddr] at hcall
  cases hcall
  -- the page count did not wrap, so the run holds the bytes
  have hfit : size ≤ pageCountForSize size * Pmm.pageSize := by
    have hn' := hn
    simp only [pageCountForSize, Pmm.pageSize, u64] at hn' ⊢
    omega
  have hfree : ∀ x, page * Pmm.pageSize + hhdmOffset ≤ x → x < page * Pmm.pageSize + hhdmOffset + size →
      Pmm.isPageUsed s.env.pmm ((x - hhdmOffset) / Pmm.pageSize) = false := fun x h1 h2 => by
    obtain ⟨h3, h4⟩ := page_of_run h1 (n := pageCountForSize size) (by omega)
    exact hrun.free _ h3 h4
  set sc : State := { s.withEnv { s.env with pmm := pmm } with mem := m } with hsc
  have hcontains : Heap.contains sc (page * Pmm.pageSize + hhdmOffset) = false := by
    rw [Heap.contains, Bool.and_eq_false_iff]
    right
    rw [← Bool.not_eq_true, regionOf_isSome]
    rintro ⟨r, hr, hx⟩
    have hu := (h.env.regionPages r hr _ hx).2.2
    rw [hfree _ le_rfl (by omega)] at hu
    exact Bool.false_ne_true hu
  have hphys : sub (page * Pmm.pageSize + hhdmOffset) hhdmOffset = page * Pmm.pageSize := by
    rw [sub_of_le (by omega) (by omega)]
    omega
  refine ⟨sc.withEnv { sc.env with pmm := Pmm.freePages (page * Pmm.pageSize) (pageCountForSize size) pmm }, ?_, ?_, ?_⟩
  · rw [kfree, if_neg (by omega), if_neg (by omega), if_neg (by simp [hcontains]), hphys]
    rfl
  · -- no free slice is in the run
    have hkept : SlicesAt hhdmOffset
        (sc.withEnv { sc.env with pmm := Pmm.freePages (page * Pmm.pageSize) (pageCountForSize size) pmm }) free := by
      refine hslices.frame (h.env.without_heap.keep rfl fun q hq => ?_) rfl rfl fun i x hx y h1 h2 => hm y ?_
      · exact (hrun.give_back hn q).trans hq
      · by_contra hin
        rw [not_or, Nat.not_lt, Nat.not_le] at hin
        have hu := (hslices.carved i x hx).page_used h.env h1 (by have := (classSize_spec i).1; omega)
        rw [hfree y hin.1 hin.2] at hu
        exact Bool.false_ne_true hu
    exact hkept.slicesCarved
  · intro x h1 h2
    refine ⟨by omega, ?_⟩
    exact (hrun.give_back hn _).trans (hfree x h1 h2)

/-! ### The heap -/

/-- Free slices are outside the heap, so they stay as they are while only the heap changes. -/
theorem SlicesAt.heap_frame (h : SlicesAt hhdmOffset s free) (henv : EnvOf hhdmOffset s s'.env rs)
    (hm : ∀ x, (∀ r ∈ rs, ¬ r.Has x) → s'.mem x = s.mem x) : SlicesAt hhdmOffset s' free := by
  refine h.frame henv.ok.without_heap henv.classes henv.carved fun i n hn x h1 h2 => hm x ?_
  have hc : Carved s'.env i n := (h.carved i n hn).mono (by rw [henv.carved]; exact List.Subset.refl _)
  exact hc.not_heap hd henv.ok h1 (by have := (classSize_spec i).1; omega)

end

theorem HeapAt.client (h : HeapAt s bs) {u : Use} (hb : b ∈ bs) (hu : b.use = some u)
    (hm : ∀ x, x < u.ptr ∨ u.ptr + u.size ≤ x → m x = s.mem x) : HeapAt { s with mem := m } bs := by
  refine ⟨h.wf.frame fun c hc x hx => hm x ?_, h.tiles⟩
  by_contra hin
  rw [not_or, Nat.not_lt, Nat.not_le] at hin
  obtain ⟨h1, h2⟩ := h.wf.no_metadata hb hu hin.1 hin.2 c hc
  exact hx.elim h1 h2

theorem heap_returned (hd : DirectMap hhdmOffset) (h : Ok hhdmOffset s) (hsmall : 2048 < size)
    (hle : size ≤ heapThreshold) (hj : j ≤ 63) (hsplit : EvenSplit (backing hhdmOffset) size (2 ^ j) s)
    (hcall : Heap.alloc (backing hhdmOffset) size (2 ^ j) s = some (p, s₁)) (hp : p ≠ 0)
    (hm : ∀ x, x < p ∨ p + size ≤ x → m x = s₁.mem x) :
    ∃ s₂, kfree hhdmOffset p size { s₁ with mem := m } = some s₂ ∧ Returned hhdmOffset p size .heap s₂ := by
  have hth : heapThreshold = 1048576 := rfl
  have hpow : 2 ^ j ≤ 2 ^ 63 := Nat.pow_le_pow_right (by decide) hj
  obtain ⟨bs, hheap⟩ := h.heap
  obtain ⟨free, hslices⟩ := h.slices
  obtain ⟨p', s', bs₁, hr, hheap₁, henv, -, hkept, hcase⟩ := alloc_spec (supply_backing hd s) hheap
    ⟨h.env, rfl, rfl⟩ (show size ≠ 0 by omega) hj (by omega) hsplit
  obtain ⟨rfl, rfl⟩ := Prod.mk.inj (Option.some.inj (hr.symm.trans hcall))
  have huses := (hcase.resolve_left fun hz => hp hz.1).2
  obtain ⟨b, hb, hu⟩ : (⟨p', size, 2 ^ j⟩ : Use) ∈ Uses bs₁ := by
    rw [huses]
    exact Set.mem_insert _ _
  have hfits := b.use_fits _ hu
  dsimp only at hfits
  have hin : ∀ x, p' ≤ x → x < p' + size → b.Has x := fun x h1 h2 => by
    unfold Block.Has Block.stop
    omega
  -- the client's bytes are in the heap
  have hheap₂ : HeapAt { s' with mem := m } bs₁ := HeapAt.client hheap₁ hb hu hm
  have hslices₂ : SlicesAt hhdmOffset { s' with mem := m } free := by
    refine hslices.heap_frame hd henv fun x hx => ?_
    refine (hm x ?_).trans (hkept x (Or.inr hx))
    by_contra hmem
    rw [not_or, Nat.not_lt, Nat.not_le] at hmem
    obtain ⟨r, hr, hrx⟩ := hheap₁.wf.within b hb x (hin x hmem.1 hmem.2)
    exact hx r hr hrx
  obtain ⟨l', bs₂, hfree, hheap₃, -, ⟨g, hg, hgu, hgb, -⟩, hout⟩ := free_spec hheap₂ hb hu
  refine ⟨_, ?_, ⟨?_, bs₂, hheap₃, g, hg, hgu, fun x h1 h2 => hgb x (hin x h1 h2)⟩⟩
  · have hcontains : Heap.contains ({ s' with mem := m } : State) p' = true := by
      rw [Heap.contains, Bool.and_eq_true, regionOf_isSome, bne_iff_ne]
      exact ⟨hp, hheap₁.wf.within b hb p' (hin p' le_rfl (by omega))⟩
    rw [kfree, if_neg (by omega), if_neg (by omega), if_pos hcontains]
    exact hfree
  · have hslices₃ : SlicesAt hhdmOffset (State.withList { s' with mem := m } l') free :=
      hslices₂.heap_frame hd ⟨henv.ok, rfl, rfl⟩ fun x hx => hout x (Or.inr hx)
    exact hslices₃.slicesCarved

/-- The block that an allocation of the heap was taken from. -/
structure TakenFrom (hhdmOffset : ℕ) (s s' s₁ : State) (bs : Set Block) (b : Block) (p size k : ℕ) : Prop where
  heap : HeapAt s' bs
  env : EnvOf hhdmOffset s s'.env s'.regions
  mem : b ∈ bs
  free : b.use = none
  fits : totalUsed b.start size (2 ^ k) ≤ b.size
  call : takeBlock size (2 ^ k) b.node s' = some (p, s₁)

theorem heapAlloc_takenFrom (hd : DirectMap hhdmOffset) (h : Ok hhdmOffset s) (hsize : size ≠ 0)
    (hcall : Heap.alloc (backing hhdmOffset) size (2 ^ j) s = some (p, s₁)) (hp : p ≠ 0) :
    ∃ s' bs b, findBlock (backing hhdmOffset) size (atLeast8 (2 ^ j)) (maxRegions + 1) s = some (some b.node, s') ∧
      TakenFrom hhdmOffset s s' s₁ bs b p size (max j 3) := by
  obtain ⟨bs, hheap⟩ := h.heap
  obtain ⟨r, s', bs', hr, hg, henv, hfound⟩ := findBlock_spec (supply_backing hd s) size (atLeast8 (2 ^ j))
    (maxRegions + 1) s bs hheap ⟨h.env, rfl, rfl⟩ (by omega)
  rw [Heap.alloc, if_neg hsize, hr] at hcall
  cases r with
  | none => exact absurd (congrArg Prod.fst (Option.some.inj hcall)).symm hp
  | some n =>
    obtain ⟨b, hb, hbu, rfl, hfit⟩ := hfound n rfl
    rw [atLeast8_pow] at hfit hcall
    exact ⟨s', bs', b, hr, hg.heap, henv, hb, hbu, hfit, hcall⟩

theorem TakenFrom.ptr {k : ℕ}
    (h : TakenFrom hhdmOffset s s' s₁ bs b p size k) (hk : k ≤ 63) (hsize : 0 < size)
    (hsz : size + 2 ^ k + 24 ≤ 2 ^ 64) : b.Has p ∧ s₁.regions = s'.regions ∧ s₁.env = s'.env := by
  obtain ⟨rfl, hregions, henv⟩ := takeBlock_result h.call
  have hlt := (h.heap.wf.bounds h.mem).2
  obtain ⟨h1, -, h3⟩ := totalUsed_spec hk hsz b.min_le hlt h.fits
  have hfits := h.fits
  rw [blockHeader_node hlt]
  refine ⟨?_, hregions, henv⟩
  unfold Block.Has Block.stop
  omega

theorem two_pow_max (hj : j ≤ 63) : 8 ≤ 2 ^ max j 3 ∧ 2 ^ max j 3 ≤ 2 ^ 63 ∧ max j 3 ≤ 63 := by
  have h1 : 2 ^ 3 ≤ 2 ^ max j 3 := Nat.pow_le_pow_right (by decide) (le_max_right j 3)
  have h2 : 2 ^ max j 3 ≤ 2 ^ 63 := Nat.pow_le_pow_right (by decide) (by omega)
  exact ⟨h1, h2, by omega⟩

theorem classFor_exists (hpos : 1 ≤ size) (hle : size ≤ 2048) : ∃ i, classFor initialClasses size 8 = some i := by
  rw [classFor, if_neg (by simp only [not_or]; exact ⟨by omega, by decide⟩)]
  rw [← Option.isSome_iff_exists, List.find?_isSome]
  refine ⟨7, List.mem_finRange _, decide_eq_true ?_⟩
  have h7 : classSize 7 = 2048 := rfl
  simp only [initialClasses, h7]
  split_ifs <;> omega

/-- A small request from the heap ends up on a free list of slices. -/
theorem misrouted (hd : DirectMap hhdmOffset) (h : Ok hhdmOffset s) (hpos : 1 ≤ size) (hle : size ≤ 2048)
    (hj : j ≤ 63) (hcall : Heap.alloc (backing hhdmOffset) size (2 ^ j) s = some (p, s₁)) (hp : p ≠ 0) :
    ¬ SlicesCarved (sliceFree p size { s₁ with mem := m }) := by
  obtain ⟨s', bs, b, -, ht⟩ := heapAlloc_takenFrom hd h (by omega) hcall hp
  obtain ⟨h8, hpow, hk⟩ := two_pow_max hj
  obtain ⟨hbp, hregions, henv⟩ := ht.ptr hk hpos (by omega)
  obtain ⟨i, hi⟩ := classFor_exists hpos hle
  have hclasses : s₁.env.classes = s.env.classes := by
    rw [henv, ht.env.classes]
  have hclass : classFor s₁.env.classes size 8 = some i := by
    rw [hclasses, classFor_table h.table]
    exact hi
  intro hcarved
  obtain ⟨ns, hlist, hns⟩ := hcarved i
  rw [sliceFree, if_neg hp, hclass] at hlist hns
  simp only [update_self] at hlist
  have hmem : p ∈ ns := by
    cases ns with
    | nil => exact absurd hlist hp
    | cons n ns => exact hlist.1 ▸ List.mem_cons_self
  have hc : Carved s'.env i p := (hns p hmem).mono (by rw [← henv]; exact List.Subset.refl _)
  obtain ⟨r, hr, hrp⟩ := ht.heap.wf.within b ht.mem p hbp
  exact hc.not_heap hd ht.env.ok le_rfl (by have := (classSize_spec i).1; omega) r hr hrp

/-- An odd request that splits a block leaves a heap that is not well-formed after `kfree`. -/
theorem odd_not_returned (hd : DirectMap hhdmOffset) (h : Ok hhdmOffset s) (hsmall : 2048 < size)
    (hle : size ≤ heapThreshold) (hj : j ≤ 63) (hsplit : ¬ EvenSplit (backing hhdmOffset) size (2 ^ j) s)
    (hcall : Heap.alloc (backing hhdmOffset) size (2 ^ j) s = some (p, s₁)) (hp : p ≠ 0)
    (hm : ∀ x, x < p ∨ p + size ≤ x → m x = s₁.mem x)
    (hfree : kfree hhdmOffset p size { s₁ with mem := m } = some s₂) : ¬ FreeIn hhdmOffset p size s₂ .heap := by
  have hth : heapThreshold = 1048576 := rfl
  obtain ⟨s', bs, b, hfind, ht⟩ := heapAlloc_takenFrom hd h (by omega) hcall hp
  obtain ⟨h8, hpow, hk⟩ := two_pow_max hj
  obtain ⟨hbp, hregions, -⟩ := ht.ptr hk (by omega) (by omega)
  have hbounds := ht.heap.wf.bounds ht.mem
  have hbsize : blockSize s'.mem b.start = b.size := (ht.heap.wf.tagged b ht.mem).blockSize
  -- the split was odd
  simp only [EvenSplit, not_forall, not_or] at hsplit
  obtain ⟨node, t, hfind', hodd, hrem⟩ := hsplit
  obtain ⟨rfl, rfl⟩ : b.node = node ∧ s' = t := by
    simpa using hfind.symm.trans hfind'
  rw [blockHeader_node hbounds.2, hbsize, atLeast8_pow, Nat.not_lt] at hrem
  obtain ⟨hp0, hno⟩ := noWrap_of_fits hk (by omega) b.min_le hbounds.2 ht.fits
  obtain ⟨hptr, hpal, htotal⟩ := totalUsed_spec hk (by omega) b.min_le hbounds.2 ht.fits
  have hptr2 : userPtr b.start (2 ^ max j 3) % 2 = 0 := by
    rw [← atLeast8_pow]
    exact userPtr_even b.start_even
  have hstart2 := b.start_even
  obtain ⟨s₁', A, B, htake, hodd⟩ := takeBlock_odd ht.heap.wf ht.mem ht.free hk hp0 hno (by omega) ht.fits hrem
  obtain ⟨rfl, rfl⟩ := Prod.mk.inj (Option.some.inj (htake.symm.trans ht.call))
  -- room above the heap for the footer of the misread block
  have hroom : b.start + 512 * b.size < 2 ^ 64 := by
    have hmin := b.min_le
    have hsz := ht.heap.wf.regions.size_le (ht.heap.wf.within b ht.mem)
    obtain ⟨r, hr, hrb⟩ := ht.heap.wf.within b ht.mem b.start (by unfold Block.Has Block.stop; omega)
    obtain ⟨h1, h2, -⟩ := ht.env.ok.regionPages r hr _ hrb
    have hdr := hd.room
    simp only [Pmm.pageSize, Pmm.maxManagedPages] at h2
    omega
  have hcontains : Heap.contains ({ s₁' with mem := m } : State) (userPtr b.start (2 ^ max j 3)) = true := by
    rw [Heap.contains, Bool.and_eq_true, regionOf_isSome, bne_iff_ne]
    refine ⟨hp, ?_⟩
    obtain ⟨r, hr, hrx⟩ := ht.heap.wf.within b ht.mem _ hbp
    exact ⟨r, by rw [← hregions] at hr; exact hr, hrx⟩
  rw [kfree, if_neg (by omega), if_neg (by omega), if_pos hcontains] at hfree
  obtain ⟨A', hseg⟩ := hodd.free_stuck ht.heap ht.mem hroom (by omega) hm hfree
  rintro ⟨bs₂, hheap, -⟩
  have := hheap.wf.even_of_seg hseg
  have := hodd.odd
  have := b.start_even
  omega

theorem kalloc_heap (hpos : 1 ≤ size) (hl : servedBy size alignment = .heap) :
    kalloc hhdmOffset size alignment s = Heap.alloc (backing hhdmOffset) size alignment s := by
  unfold servedBy at hl
  split_ifs at hl with h1 h2
  rw [kalloc, if_neg (by omega), if_neg h1, if_pos h2]

/-- `kfree` gives the memory back to its layer exactly for requests above 2048 bytes or with
an alignment up to 16, if the heap did not split a block at an odd size. -/
theorem kfree_returns_iff (hd : DirectMap hhdmOffset) (h : Ok hhdmOffset s) (hpos : 1 ≤ size) (hlt : size < 2 ^ 64)
    (hj : j ≤ 63) (hcall : kalloc hhdmOffset size (2 ^ j) s = some (p, s₁)) (hp : p ≠ 0)
    (hm : ∀ x, x < p ∨ p + size ≤ x → m x = s₁.mem x) :
    (∃ s₂, kfree hhdmOffset p size { s₁ with mem := m } = some s₂ ∧
      Returned hhdmOffset p size (servedBy size (2 ^ j)) s₂) ↔
    (2048 < size ∨ 2 ^ j ≤ 16) ∧
      (servedBy size (2 ^ j) = .heap → EvenSplit (backing hhdmOffset) size (2 ^ j) s) := by
  cases hl : servedBy size (2 ^ j) with
  | slices =>
    have hs : size ≤ 2048 ∧ 2 ^ j ≤ 16 := by
      unfold servedBy at hl
      split_ifs at hl with h1
      exact h1
    rw [kalloc, if_neg (by omega), if_pos hs] at hcall
    have hret := sliceAlloc_returned hd h (Option.some.inj hcall) hp hm
    refine ⟨fun _ => ⟨Or.inr hs.2, fun hc => nomatch hc⟩, fun _ => ⟨_, ?_, hret⟩⟩
    rw [kfree, if_neg (by omega), if_pos hs.1]
  | heap =>
    rw [kalloc_heap hpos hl] at hcall
    unfold servedBy at hl
    split_ifs at hl with h1 h2
    by_cases hsmall : size ≤ 2048
    · have hnot : ¬ (2048 < size ∨ 2 ^ j ≤ 16) := by omega
      refine ⟨fun hret => ?_, fun hc => absurd hc.1 hnot⟩
      obtain ⟨s₂, hfree, hret⟩ := hret
      rw [kfree, if_neg (by omega), if_pos hsmall, Option.some.injEq] at hfree
      exact absurd (hfree ▸ hret.carved) (misrouted hd h hpos hsmall hj hcall hp)
    · rw [Nat.not_le] at hsmall
      constructor
      · rintro ⟨s₂, hfree, hret⟩
        refine ⟨Or.inl hsmall, fun _ => ?_⟩
        by_contra hsplit
        exact odd_not_returned hd h hsmall h2 hj hsplit hcall hp hm hfree hret.free
      · rintro ⟨-, hsplit⟩
        exact heap_returned hd h hsmall h2 hj (hsplit rfl) hcall hp hm
  | pages =>
    have hlarge : heapThreshold < size := by
      unfold servedBy at hl
      split_ifs at hl with h1 h2
      omega
    have hth : heapThreshold = 1048576 := rfl
    have hret := pages_returned hd h hlarge hlt hcall hp hm
    exact ⟨fun _ => ⟨Or.inl (by omega), fun hc => nomatch hc⟩, fun _ => hret⟩

theorem ok_init (pmm : Pmm.State) (mem : Mem) :
    Ok hhdmOffset (Heap.init mem ⟨pmm, initialClasses, ⟨0, 0, 0, 0⟩, []⟩) := by
  refine ⟨⟨∅, ⟨by simp, by simp, by simp, ⟨Nat.zero_le _, by simp [Heap.init], by simp [Heap.init]⟩,
    [], rfl, List.Pairwise.nil, by simp⟩, fun x => by simp [Heap.init]⟩, ⟨?_, ?_, ?_, ?_⟩, fun i => ⟨rfl, rfl⟩,
    fun i => ⟨[], rfl, List.nodup_nil, by simp⟩⟩
  all_goals simp [Heap.init]

/-- Thirty-two free pages above a reserved one, and nothing allocated. -/
def idleState : State :=
  Heap.init (fun _ => 0)
    ⟨Pmm.init ⟨[⟨0x1000, 0x20000, .usable⟩], 0x100000, 0x1000⟩, initialClasses, ⟨0, 0, 0, 0⟩, []⟩

theorem ok_idleState : Ok hhdmOffset idleState := ok_init _ _

theorem directMap_kernelHalf : DirectMap 0xFFFF800000000000 := ⟨by decide, by decide, by decide⟩

theorem idleState_slice : (sliceAlloc 0xFFFF800000000000 64 8 idleState).1 = 0xFFFF800000001FC0 := by
  decide +kernel

/-- `kalloc(64, 8)` and `kfree`. -/
theorem kfree_returns_slice : ∃ p s₁ s₂, kalloc 0xFFFF800000000000 64 8 idleState = some (p, s₁) ∧ p ≠ 0 ∧
    kfree 0xFFFF800000000000 p 64 s₁ = some s₂ ∧ Returned 0xFFFF800000000000 p 64 .slices s₂ := by
  obtain ⟨p, s₁, hslice⟩ : ∃ p s₁, sliceAlloc 0xFFFF800000000000 64 8 idleState = (p, s₁) := ⟨_, _, Prod.mk.eta.symm⟩
  have hp : p ≠ 0 := by
    have := idleState_slice
    rw [hslice] at this
    omega
  have hcall : kalloc 0xFFFF800000000000 64 (2 ^ 3) idleState = some (p, s₁) := by
    rw [kalloc, if_neg (by decide), if_pos (by decide), show (2 : ℕ) ^ 3 = 8 from rfl, hslice]
  obtain ⟨s₂, hfree, hret⟩ := (kfree_returns_iff directMap_kernelHalf ok_idleState (by decide) (by decide) (by decide)
    hcall hp fun _ _ => rfl).mpr ⟨Or.inr (by decide), fun hl => absurd hl (by decide)⟩
  exact ⟨p, s₁, s₂, hcall, hp, hfree, hret⟩

theorem idleState_heap : (kalloc 0xFFFF800000000000 64 32 idleState).map Prod.fst = some 0xFFFF800000001020 := by
  decide +kernel

/-- `kalloc(64, 32)` takes a heap block, and `kfree` puts it on the list of 64-byte slices. -/
theorem aligned_block_misrouted : ∃ p s₁, kalloc 0xFFFF800000000000 64 32 idleState = some (p, s₁) ∧ p ≠ 0 ∧
    ¬ ∃ s₂, kfree 0xFFFF800000000000 p 64 s₁ = some s₂ ∧ Returned 0xFFFF800000000000 p 64 .heap s₂ := by
  obtain ⟨⟨p, s₁⟩, hcall, rfl⟩ := Option.map_eq_some_iff.mp idleState_heap
  refine ⟨_, s₁, hcall, by decide, ?_⟩
  rintro ⟨s₂, hfree, hret⟩
  have hheap : Heap.alloc (backing 0xFFFF800000000000) 64 (2 ^ 5) idleState = some (0xFFFF800000001020, s₁) := by
    rw [← kalloc_heap (by decide) (by decide)]
    exact hcall
  rw [kfree, if_neg (by decide), if_pos (by decide), Option.some.injEq] at hfree
  exact misrouted directMap_kernelHalf ok_idleState (by decide) (by decide) (by decide) hheap (by decide)
    (hfree ▸ hret.carved)

end Tori.Kalloc
