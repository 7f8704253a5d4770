import Tori.Proofs.HeapFree

/-! The heap stays safe in every run whose requests cannot wrap `total_used`, and a request
that wraps it breaks the heap. -/

namespace Tori.Heap

open Word Linked Function

variable {σ : Type} {bs : Set Block}

variable {s : State σ} {live : Live} {p size : ℕ}

theorem Supplied.mono {answers : List ℕ} {rs rs' : List HeapRegion} (hsub : ∀ r ∈ rs', r ∈ rs)
    (h : Supplied rs answers) : Supplied rs' answers := by
  induction answers generalizing rs rs' with
  | nil => trivial
  | cons a answers ih =>
    rcases h with ⟨ha, h⟩ | ⟨hn, h⟩
    · exact Or.inl ⟨ha, ih hsub h⟩
    · refine Or.inr ⟨⟨hn.aligned, hn.pos, hn.lt, fun r hr => hn.apart r (hsub r hr)⟩, ih ?_ h⟩
      intro r hr
      rcases List.mem_append.mp hr with hr | hr
      · exact List.mem_append_left _ (hsub r hr)
      · exact List.mem_append_right _ hr

theorem supply_answering : Supply answering fun answers rs => Supplied rs answers := by
  have hinvalid : ∀ rs, ¬ NewRegion rs Pmm.invalidPhysicalAddress :=
    fun rs h => absurd h.aligned (by decide)
  refine ⟨fun p rs h ha => ?_, fun p rs h ha => ?_, fun p rs h ha => ?_, fun p rs h ha => ?_⟩ <;>
    rcases p with _ | ⟨a, p⟩
  · trivial
  · rcases h with ⟨-, h⟩ | ⟨hn, -⟩
    · exact h
    · rw [show a = Pmm.invalidPhysicalAddress from ha] at hn
      exact absurd hn (hinvalid rs)
  · exact absurd rfl ha
  · exact (h.resolve_left fun h => ha h.1).1
  · exact absurd rfl ha
  · exact (h.resolve_left fun h => ha h.1).2
  · exact absurd rfl ha
  · exact (h.resolve_left fun h => ha h.1).2.mono fun r hr => List.mem_append_left _ hr

variable {u : Use} {alignment x k : ℕ} {bs' : Set Block} {s' : State σ}

theorem Wf.use_unique {rs : List HeapRegion} {l : Store} (h : Wf rs l bs) {v : Use}
    (hu : u ∈ Uses bs) (hv : v ∈ Uses bs) (hp : u.ptr = v.ptr) : u = v := by
  obtain ⟨a, ha, hau⟩ := hu
  obtain ⟨b, hb, hbv⟩ := hv
  have h1 := a.use_fits u hau
  have h2 := b.use_fits v hbv
  obtain rfl := h.uniq a ha b hb u.ptr (by unfold Block.Has Block.stop; omega)
    (by unfold Block.Has Block.stop; omega)
  exact Option.some.inj (hau.symm.trans hbv)

/-- The blocks of the heap and its allocations. -/
structure Inv (s : State σ) (live : Live) (bs : Set Block) : Prop where
  heap : HeapAt s bs
  live_iff : ∀ p size alignment,
    live p = some (size, alignment) ↔ (⟨p, size, alignment⟩ : Use) ∈ Uses bs

theorem Inv.no_metadata (h : Inv s live bs)
    (hp : live p = some (size, alignment)) (h1 : p ≤ x) (h2 : x < p + size) :
    ∀ b ∈ bs, ¬ b.Tag x ∧ ¬ b.Link x := by
  obtain ⟨a, ha, hau⟩ := (h.live_iff p size alignment).mp hp
  exact h.heap.wf.no_metadata ha hau h1 h2

theorem Inv.safe (h : Inv s live bs) : Safe s live bs := by
  refine ⟨h.heap.tiles, h.heap.wf.uniq, fun b hb => (h.heap.wf.tagged b hb).header, fun b hb => ?_,
    ?_, h.live_iff, fun p size alignment hp => ?_, ?_, fun p size alignment x hp h1 h2 =>
    h.no_metadata hp h1 h2⟩
  · exact (h.heap.wf.tagged b hb).footer.trans (h.heap.wf.tagged b hb).header.symm
  · obtain ⟨ns, h1, h2, h3⟩ := h.heap.wf.list
    exact ⟨ns, h1, h2.imp fun hab => by omega, h3⟩
  · obtain ⟨b, hb, hbu⟩ := (h.live_iff p size alignment).mp hp
    exact (b.use_fits _ hbu).2.2
  · intro p q size size' alignment alignment' x hpq hp hq h1 h2 hx
    obtain ⟨a, ha, hau⟩ := (h.live_iff _ _ _).mp hp
    obtain ⟨b, hb, hbu⟩ := (h.live_iff _ _ _).mp hq
    have hfa := a.use_fits _ hau
    have hfb := b.use_fits _ hbu
    dsimp only at hfa hfb
    obtain rfl := h.heap.wf.uniq a ha b hb x (by unfold Block.Has Block.stop; omega)
      (by unfold Block.Has Block.stop; omega)
    have := Option.some.inj (hau.symm.trans hbu)
    simp only [Use.mk.injEq] at this
    exact hpq this.1

theorem inv_init (mem : Mem) : Inv (init mem ([] : List ℕ)) (fun _ => none) ∅ := by
  refine ⟨⟨⟨by simp, by simp, by simp, ⟨by simp [init], by simp [init], by simp [init]⟩, [], ?_⟩, ?_⟩, ?_⟩
  · exact ⟨rfl, List.Pairwise.nil, by simp⟩
  · simp [init]
  · simp [Uses]

/-- The request cannot wrap `total_used`, wherever the block lies. -/
def NoWrap (size alignment : ℕ) : Prop := size + max alignment 8 + 24 ≤ 2 ^ 64

instance (size alignment : ℕ) : Decidable (NoWrap size alignment) :=
  inferInstanceAs (Decidable (_ ≤ _))

theorem exponent_le (hk : 2 ^ k ≤ 4096) : k ≤ 63 := by
  have : k ≤ 12 := (Nat.pow_le_pow_iff_right (by decide)).mp (hk : 2 ^ k ≤ 2 ^ 12)
  omega

theorem Inv.insert (h : Inv s live bs) (hheap : HeapAt s' bs')
    (huses : Uses bs' = Insert.insert ⟨p, size, alignment⟩ (Uses bs)) :
    Inv s' (update live p (some (size, alignment))) bs' := by
  refine ⟨hheap, fun q size' alignment' => ?_⟩
  rw [update_apply]
  split_ifs with hq
  · subst hq
    have hmem : (⟨q, size, alignment⟩ : Use) ∈ Uses bs' := by
      rw [huses]
      exact Set.mem_insert _ _
    constructor
    · intro he
      simp only [Option.some.injEq, Prod.mk.injEq] at he
      rw [← he.1, ← he.2]
      exact hmem
    · intro hu
      have := hheap.wf.use_unique hmem hu rfl
      simp only [Use.mk.injEq, true_and] at this
      rw [this.1, this.2]
  · rw [huses, Set.mem_insert_iff, h.live_iff q size' alignment', Use.mk.injEq]
    simp [hq]

theorem Inv.remove (h : Inv s live bs) (hheap : HeapAt s' bs')
    (hu : u ∈ Uses bs) (huses : Uses bs' = Uses bs \ {u}) : Inv s' (update live u.ptr none) bs' := by
  refine ⟨hheap, fun q size' alignment' => ?_⟩
  rw [update_apply, huses]
  split_ifs with hq
  · subst hq
    refine iff_of_false (by simp) fun hmem => hmem.2 ?_
    exact h.heap.wf.use_unique hmem.1 hu rfl
  · rw [h.live_iff q size' alignment', Set.mem_sdiff, Set.mem_singleton_iff]
    refine ⟨fun hmem => ⟨hmem, ?_⟩, And.left⟩
    rintro rfl
    exact hq rfl

theorem Inv.alloc {s : State (List ℕ)} (h : Inv s live bs)
    {answers : List ℕ} (heven : size % 2 = 0) (hsize : 2 ≤ size) (hk : 2 ^ k ≤ 4096)
    (hwrap : NoWrap size (2 ^ k)) (hs : Supplied s.regions answers) :
    ∃ p s' bs', Heap.alloc answering size (2 ^ k) { s with env := answers } = some (p, s') ∧
      Inv s' (if p = 0 then live else update live p (some (size, 2 ^ k))) bs' := by
  obtain ⟨p, s', bs', hr, hheap, -, -, -, hp⟩ := alloc_spec supply_answering
    (s := { s with env := answers }) ⟨h.heap.wf, h.heap.tiles⟩ hs (show size ≠ 0 by omega)
    (exponent_le hk) hwrap fun _ _ _ => Or.inl heven
  refine ⟨p, s', bs', hr, ?_⟩
  rcases hp with ⟨rfl, huses⟩ | ⟨hne, huses⟩
  · rw [if_pos rfl]
    exact ⟨hheap, by rw [huses]; exact h.live_iff⟩
  · rw [if_neg hne]
    exact h.insert hheap huses

theorem Inv.free (h : Inv s live bs) (hp : live p ≠ none) :
    ∃ s' bs', Heap.free p s = some s' ∧ Inv s' (update live p none) bs' := by
  obtain ⟨⟨size, alignment⟩, hp⟩ := Option.ne_none_iff_exists'.mp hp
  have hu := (h.live_iff p size alignment).mp hp
  obtain ⟨b, hb, hbu⟩ := id hu
  obtain ⟨l', bs', hr, hheap, huses, -, -⟩ := free_spec h.heap hb hbu
  exact ⟨_, bs', hr, h.remove hheap hu huses⟩

theorem Inv.store (h : Inv s live bs) (v : BitVec 8)
    (hx : (∃ p size alignment, live p = some (size, alignment) ∧ p ≤ x ∧ x < p + size) ∨
      ∀ r ∈ s.regions, ¬ r.Has x) : Inv (s.withMem fun m => m.store8 x v) live bs := by
  refine ⟨⟨h.heap.wf.frame fun b hb y hy => update_of_ne ?_ _ _, h.heap.tiles⟩, h.live_iff⟩
  rintro rfl
  rcases hx with ⟨p, size, alignment, hp, h1, h2⟩ | hout
  · have := h.no_metadata hp h1 h2 b hb
    exact hy.elim this.1 this.2
  · obtain ⟨r, hr, hrx⟩ := h.heap.wf.within b hb y (hy.elim Block.Tag.has Block.Link.has)
    exact hout r hr hrx

theorem Inv.step {s s' : State (List ℕ)} {live' : Live} (h : Inv s live bs)
    (hstep : Step NoWrap s live s' live') : ∃ bs', Inv s' live' bs' := by
  cases hstep with
  | alloc heven hsize _ hk hallowed hsupplied hr =>
    obtain ⟨p, s1, bs', hr1, hinv⟩ := h.alloc heven hsize hk hallowed hsupplied
    obtain ⟨rfl, rfl⟩ : p = _ ∧ s1 = s' := by simpa using hr1.symm.trans hr
    exact ⟨bs', hinv⟩
  | free hlive hr =>
    obtain ⟨s1, bs', hr1, hinv⟩ := h.free hlive
    obtain rfl : s1 = s' := by simpa using hr1.symm.trans hr
    exact ⟨bs', hinv⟩
  | store x v hx => exact ⟨bs, h.store v hx⟩

theorem inv_run {s : State (List ℕ)} (hrun : Run NoWrap s live) : ∃ bs, Inv s live bs := by
  induction hrun with
  | init mem => exact ⟨∅, inv_init mem⟩
  | step _ hstep ih =>
    obtain ⟨bs, h⟩ := ih
    exact h.step hstep

/-- In every run whose requests satisfy `NoWrap` the heap is safe in the state reached, and
there every such request and every `free` of a live pointer returns. -/
theorem heap_safe {s : State (List ℕ)} {live : Live} (hrun : Run NoWrap s live) :
    (∃ bs, Safe s live bs) ∧
      (∀ size k answers, size % 2 = 0 → 2 ≤ size → 2 ^ k ≤ 4096 → NoWrap size (2 ^ k) →
        Supplied s.regions answers →
        ∃ p s', alloc answering size (2 ^ k) { s with env := answers } = some (p, s')) ∧
      ∀ p, live p ≠ none → ∃ s', free p s = some s' := by
  obtain ⟨bs, h⟩ := inv_run hrun
  refine ⟨⟨bs, h.safe⟩, fun size k answers heven hsize hk hwrap hs => ?_, fun p hp => ?_⟩
  · obtain ⟨p, s', -, hr, -⟩ := h.alloc heven hsize hk hwrap hs
    exact ⟨p, s', hr⟩
  · obtain ⟨s', -, hr, -⟩ := h.free hp
    exact ⟨s', hr⟩

theorem run_first (allowed : ℕ → ℕ → Prop) (size k p base : ℕ) (rs : List HeapRegion)
    (heven : size % 2 = 0) (hsize : 2 ≤ size) (hlt : size < 2 ^ 64) (hk : 2 ^ k ≤ 4096)
    (hallowed : allowed size (2 ^ k)) (hbase : NewRegion [] base) (hp : p ≠ 0)
    (hr : (alloc answering size (2 ^ k) (init (fun _ => 0) [base])).map
      (fun r => (r.1, r.2.regions)) = some (p, rs)) :
    ∃ s, Run allowed s (update (fun _ => none) p (some (size, 2 ^ k))) ∧ s.regions = rs := by
  obtain ⟨⟨q, s⟩, ha, he⟩ := Option.map_eq_some_iff.mp hr
  obtain ⟨rfl, rfl⟩ := he
  have hstep : Step allowed (init (fun _ => 0) []) (fun _ => none) s
      (if q = 0 then fun _ => none else update (fun _ => none) q (some (size, 2 ^ k))) :=
    Step.alloc heven hsize hlt hk hallowed
      (show Supplied (init (fun _ => 0) ([] : List ℕ)).regions [base] from Or.inr ⟨hbase, trivial⟩) ha
  rw [if_neg hp] at hstep
  exact ⟨s, (Run.init fun _ => 0).step hstep, rfl⟩

theorem newRegion_example : NewRegion [] 65536 := ⟨by decide, by decide, by decide, by simp⟩

theorem heap_safe_small : ∃ s live, Run NoWrap s live ∧ live 65552 = some (64, 8) ∧
    ∃ bs, Safe s live bs := by
  obtain ⟨s, hrun, -⟩ := run_first NoWrap 64 3 65552 65536 [⟨65536, 131072⟩] (by decide)
    (by decide) (by decide) (by decide) (show NoWrap 64 8 by decide) newRegion_example (by decide) (by decide +kernel)
  exact ⟨s, _, hrun, by simp, (heap_safe hrun).1⟩

/-- A request of `2 ^ 64 - 2` bytes wraps `total_used` to 22 and is given a block of 32
bytes: its range covers the footer at the end of the region. -/
theorem heap_unsafe_huge : ∃ s live, Run (fun _ _ => True) s live ∧ ¬ ∃ bs, Safe s live bs := by
  obtain ⟨s, hrun, hrs⟩ := run_first (fun _ _ => True) (2 ^ 64 - 2) 3 65552 65536
    [⟨65536, 131072⟩] (by decide) (by decide) (by decide) (by decide) trivial newRegion_example (by decide) (by decide +kernel)
  refine ⟨s, _, hrun, ?_⟩
  rintro ⟨bs, h⟩
  have htiles := h.tiles
  simp only [hrs, List.mem_singleton, exists_eq_left, HeapRegion.Has] at htiles
  obtain ⟨b, hb, hbx⟩ := (htiles 131071).mp (by decide)
  have hend := (htiles (b.stop - 1)).mpr ⟨b, hb, by unfold Block.Has at hbx ⊢; omega⟩
  refine (h.metadata 65552 (2 ^ 64 - 2) 8 131071 (by simp) (by decide) (by decide) b hb).1 ?_
  exact Or.inr (Or.inl ⟨by omega, hbx.2⟩)

end Tori.Heap
