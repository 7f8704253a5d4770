import Tori.Sanity.Pmm

/-! The bitmap, the reference counts and the counters of the page allocator stay in
step from `init` on, whatever the arguments; and clients that only give back what they
hold never see a page twice. -/

namespace Tori.Pmm

open Word Loop

variable {s s' : State} {p q : ℕ} {bootInfo : BootInfo} {c : Client}

def usedCount (s : State) : ℕ :=
  ((Finset.range maxManagedPages).filter fun p => isPageUsed s p = true).card

structure Wf (s : State) : Prop where
  managed : s.allocatorStats.managedPages = maxManagedPages
  total : s.allocatorStats.freePages + s.allocatorStats.usedPages = maxManagedPages
  used : s.allocatorStats.usedPages = usedCount s
  clear : ∀ p, isPageUsed s p = false → s.pageRefcounts p = 0
  hint : s.nextSearchPage < maxManagedPages

theorem usedCount_le (s : State) : usedCount s ≤ maxManagedPages := by
  exact (Finset.card_filter_le _ _).trans (by rw [Finset.card_range])

theorem usedCount_lt (hp : p < maxManagedPages) (hfree : isPageUsed s p = false) :
    usedCount s < maxManagedPages := by
  have hlt := Finset.card_lt_card (Finset.filter_ssubset (p := fun q => isPageUsed s q = true).2 ⟨p, Finset.mem_range.2 hp, ne_true_of_eq_false hfree⟩)
  rwa [Finset.card_range] at hlt

theorem usedCount_congr (h : ∀ p, isPageUsed s' p = isPageUsed s p) :
    usedCount s' = usedCount s := by
  unfold usedCount
  simp only [h]

theorem usedCount_set (hp : p < maxManagedPages)
    (hfree : isPageUsed s p = false) (hset : isPageUsed s' p = true)
    (hother : ∀ q, q ≠ p → isPageUsed s' q = isPageUsed s q) :
    usedCount s' = usedCount s + 1 := by
  unfold usedCount
  have hins : (Finset.range maxManagedPages).filter (fun q => isPageUsed s' q = true) =
      insert p ((Finset.range maxManagedPages).filter fun q => isPageUsed s q = true) := by
    ext q
    by_cases hq : q = p
    · subst hq; simp [hp, hset]
    · simp [hq, hother q hq]
  rw [hins, Finset.card_insert_of_notMem (by simp [hfree])]

theorem Wf.counts_lt (h : Wf s) :
    s.allocatorStats.freePages < 2 ^ 64 - 1 ∧ s.allocatorStats.usedPages < 2 ^ 64 - 1 := by
  have := h.total
  have hm : maxManagedPages = 1048576 := rfl
  omega

/-- A page goes from free to used, or back. -/
theorem Wf.toggle (h : Wf s) {u : Bool} {r : ℕ} (hp : p < maxManagedPages) (hold : isPageUsed s p = !u)
    (hst : ∀ q, pageState s' q = if q = p then (u, r) else pageState s q) (hr : u = false → r = 0)
    (hstats : u = true ∧ s'.allocatorStats = { s.allocatorStats with
        freePages := dec s.allocatorStats.freePages, usedPages := inc s.allocatorStats.usedPages } ∨
      u = false ∧ s'.allocatorStats = { s.allocatorStats with
        freePages := inc s.allocatorStats.freePages, usedPages := dec s.allocatorStats.usedPages })
    (hn : s'.nextSearchPage = s.nextSearchPage) : Wf s' := by
  have hself : pageState s' p = (u, r) := (hst p).trans (if_pos rfl)
  have hother : ∀ q, q ≠ p → pageState s' q = pageState s q := fun q hq => (hst q).trans (if_neg hq)
  have hused := h.used
  have htotal := h.total
  obtain ⟨hfree, hlt⟩ := h.counts_lt
  obtain ⟨h1, h2, h3⟩ : s'.allocatorStats.managedPages = maxManagedPages ∧
      s'.allocatorStats.freePages + s'.allocatorStats.usedPages = maxManagedPages ∧
      s'.allocatorStats.usedPages = usedCount s' := by
    rcases hstats with ⟨rfl, hs⟩ | ⟨rfl, hs⟩
    · have hcount := usedCount_set hp hold (Prod.mk.inj hself).1 fun q hq => (pageState_ext (hother q hq)).1
      have hle := usedCount_le s'
      rw [hs, dec_of_pos (by omega) (by omega), inc_of_lt (by omega)]
      exact ⟨h.managed, by dsimp only; omega, by dsimp only; omega⟩
    · have hcount := usedCount_set hp (Prod.mk.inj hself).1 hold fun q hq => (pageState_ext (hother q hq)).1.symm
      rw [hs, dec_of_pos (by omega) (by omega), inc_of_lt (by omega)]
      exact ⟨h.managed, by dsimp only; omega, by dsimp only; omega⟩
  refine ⟨h1, h2, h3, fun q hq => ?_, hn ▸ h.hint⟩
  by_cases hqp : q = p
  · subst hqp
    rw [(Prod.mk.inj hself).2]
    exact hr ((Prod.mk.inj hself).1.symm.trans hq)
  · obtain ⟨hbit, hcount⟩ := pageState_ext (hother q hqp)
    exact hcount.trans (h.clear q (hbit.symm.trans hq))

theorem Wf.mark_used (h : Wf s) (p : ℕ) : Wf (markPageUsed p s) := by
  have hst := pageState_markPageUsed s p
  by_cases hv : p < maxManagedPages ∧ isPageUsed s p = false
  · simp only [hv, and_true] at hst
    unfold markPageUsed at hst ⊢
    rw [if_neg (mt (guard_iff p _).mp (not_not_intro hv))] at hst ⊢
    exact h.toggle (u := true) hv.1 hv.2 hst (fun h => by cases h) (.inl ⟨rfl, rfl⟩) rfl
  · unfold markPageUsed
    rwa [if_pos ((guard_iff p _).mpr hv)]

theorem Wf.mark_free (h : Wf s) (p : ℕ) : Wf (markPageFree p s) := by
  have hst := pageState_markPageFree s p
  by_cases hv : p < maxManagedPages ∧ isPageUsed s p = true
  · simp only [hv, and_true] at hst
    unfold markPageFree at hst ⊢
    have hguard : ¬(!pageIndexValid p || !isPageUsed s p) = true := by simp [pageIndexValid, hv]
    rw [if_neg hguard] at hst ⊢
    exact h.toggle (u := false) hv.1 hv.2 hst (fun _ => rfl) (.inr ⟨rfl, rfl⟩) rfl
  · unfold markPageFree
    rwa [if_pos ((guard_iff p _).mpr (by simpa using hv))]

theorem Wf.same_pages (h : Wf s) (hbm : s'.pageBitmap = s.pageBitmap)
    (hrc : s'.pageRefcounts = s.pageRefcounts)
    (hm : s'.allocatorStats.managedPages = s.allocatorStats.managedPages)
    (hf : s'.allocatorStats.freePages = s.allocatorStats.freePages)
    (hu : s'.allocatorStats.usedPages = s.allocatorStats.usedPages)
    (hn : s'.nextSearchPage < maxManagedPages) : Wf s' := by
  have hpage : ∀ p, isPageUsed s' p = isPageUsed s p := fun p => by unfold isPageUsed; rw [hbm]
  refine ⟨by rw [hm, h.managed], by rw [hf, hu, h.total], by rw [hu, h.used, usedCount_congr hpage],
    ?_, hn⟩
  intro p hp
  rw [hrc]
  exact h.clear p (by rw [← hpage p]; exact hp)

theorem Wf.set_refcount (h : Wf s) (p r : ℕ) (hp : isPageUsed s p = true) :
    Wf { s with pageRefcounts := Function.update s.pageRefcounts p r } := by
  refine ⟨h.managed, h.total, h.used, ?_, h.hint⟩
  intro q hq
  have hqp : q ≠ p := by
    rintro rfl
    have : isPageUsed s q = false := hq
    rw [hp] at this
    exact absurd this (by decide)
  simp only [Function.update_of_ne hqp]
  exact h.clear q hq

theorem isPageUsed_reserveAllPages (p : ℕ) : isPageUsed reserveAllPages p = true := by
  rw [isPageUsed_eq, reserveAllPages, BitVec.getLsbD_allOnes]
  exact decide_eq_true (Nat.mod_lt _ (by decide))

theorem usedCount_reserveAllPages : usedCount reserveAllPages = maxManagedPages := by
  unfold usedCount
  simp [isPageUsed_reserveAllPages]

theorem wf_reserveAllPages : Wf reserveAllPages :=
  ⟨rfl, by simp [reserveAllPages], usedCount_reserveAllPages.symm, fun _ _ => rfl, by decide⟩

/-- What every page mark and the two other counters keep holds after `init`. -/
theorem init_inv {P : State → Prop} (hall : P reserveAllPages) (hused : ∀ s p, P s → P (markPageUsed p s))
    (hfree : ∀ s p, P s → P (markPageFree p s)) (hskip : ∀ s n, P s → P (addSkipped n s))
    (hreclaim : ∀ s, P s → P (addReclaimed s)) (bootInfo : BootInfo) : P (init bootInfo) := by
  have hpage : ∀ b p s, P s → P (freeRangePage b p s) := by
    intro b p s h
    unfold freeRangePage
    split_ifs
    · exact hreclaim _ (hfree s p h)
    · exact hfree s p h
    · exact h
  have hloop : ∀ b n lo s, P s → P (forUp (freeRangePage b) n lo s) := fun b n lo s h =>
    forUp_inv n lo s (fun i s _ _ => hpage b i s) h
  have hregion : ∀ s region, P s → P (initRegion s region) := by
    intro s region h
    unfold initRegion freeRange
    dsimp only
    split_ifs
    · exact h
    · exact h
    · exact hskip s _ h
    · exact hloop _ _ _ _ (hskip s _ h)
    · exact hloop _ _ _ _ h
    · exact h
  have hreserve : ∀ base length s, P s → P (reserveRange base length s) := by
    intro base length s h
    unfold reserveRange
    dsimp only
    split_ifs
    · exact h
    · exact h
    all_goals exact forUp_inv _ _ s (fun i s _ _ => hused s i) h
  have hregions : ∀ rs : List MemoryRegion, P (rs.foldl initRegion reserveAllPages) := fun rs =>
    List.foldlRecOn rs initRegion hall fun s hs r _ => hregion s r hs
  exact hreserve _ _ _ (hreserve _ _ _ (hregions _))

theorem wf_init (bootInfo : BootInfo) : Wf (init bootInfo) :=
  init_inv wf_reserveAllPages (fun _ p h => h.mark_used p) (fun _ p h => h.mark_free p)
    (fun _ _ h => h.same_pages rfl rfl rfl rfl rfl h.hint) (fun _ h => h.same_pages rfl rfl rfl rfl rfl h.hint) bootInfo

theorem Wf.alloc_pages (h : Wf s) (n : ℕ) : Wf (allocPages n s).2 := by
  unfold allocPages
  split_ifs
  · exact h
  · cases findRun s n with
    | none => exact h
    | some page =>
      have hmark : Wf (forUp markPageUsed n page s) :=
        forUp_inv (P := fun _ s => Wf s) n page s (fun i s _ _ h => h.mark_used i) h
      exact hmark.same_pages rfl rfl rfl rfl rfl (Nat.mod_lt _ (by decide))

theorem Wf.alloc_none (h : Wf s) (hfree : s.allocatorStats.freePages = 0) :
    allocPage s = (invalidPhysicalAddress, s) := by
  rcases hcall : allocPages 1 s with ⟨a, s'⟩
  have hinvalid : a = invalidPhysicalAddress := by
    by_contra hok
    obtain ⟨f, -, -, hle, hunused, -⟩ := allocPages_spec hcall hok
    have hlt := usedCount_lt hle (hunused f le_rfl (Nat.lt_succ_self f))
    have htotal := h.total
    rw [hfree, Nat.zero_add, h.used] at htotal
    exact absurd htotal (Nat.ne_of_lt hlt)
  rw [hinvalid] at hcall
  rw [allocPage, hcall, allocPages_fail hcall]

theorem Wf.retain_page (h : Wf s) (a : ℕ) : Wf (retainPage a s) := by
  unfold retainPage
  dsimp only
  split_ifs with h1 h2 h3
  · exact h
  · exact h
  · simp only [Bool.or_eq_true, Bool.not_eq_true', not_or, Bool.not_eq_false] at h2
    exact h.set_refcount _ _ h2.2
  · exact h

theorem Wf.free_one (h : Wf s) (p : ℕ) : Wf (freeOne p s) := by
  unfold freeOne
  split_ifs with h1 h2
  · exact h
  · exact h.set_refcount _ _ (by simpa using h1)
  · exact h.mark_free p

theorem Wf.free_pages (h : Wf s) (a n : ℕ) : Wf (freePages a n s) := by
  unfold freePages
  dsimp only
  have hloop : ∀ (n lo : ℕ), Wf (forUp freeOne n lo s) := fun n lo =>
    forUp_inv (P := fun _ s => Wf s) n lo s (fun i s _ _ h => h.free_one i) h
  split_ifs with h1 h2 h3 h4 h5
  · exact h
  · exact h
  · exact (hloop _ _).same_pages rfl rfl rfl rfl rfl (h4.trans (hloop _ _).hint)
  · exact hloop _ _
  · exact (hloop _ _).same_pages rfl rfl rfl rfl rfl (h5.trans (hloop _ _).hint)
  · exact hloop _ _

theorem Wf.apply (h : Wf s) (op : Op) : Wf (op.apply s) := by
  cases op with
  | allocPages n => exact h.alloc_pages n
  | retainPage a => exact h.retain_page a
  | freePages a n => exact h.free_pages a n

theorem wf_run (ops : List Op) : ∀ s, Wf s → Wf (run s ops) := by
  induction ops with
  | nil => intro s h; exact h
  | cons op ops ih => intro s h; exact ih _ (h.apply op)

/-! ### Clients -/

/-- Pages outside the managed range are never handed out. -/
def OutsideUsed (s : State) : Prop := ∀ p, maxManagedPages ≤ p → isPageUsed s p = true

theorem OutsideUsed.mark_used (h : OutsideUsed s) (p : ℕ) :
    OutsideUsed (markPageUsed p s) := by
  intro q hq
  have := pageState_markPageUsed s p q
  rw [if_neg (by omega)] at this
  rw [(pageState_ext this).1]
  exact h q hq

theorem OutsideUsed.mark_free (h : OutsideUsed s) (p : ℕ) :
    OutsideUsed (markPageFree p s) := by
  intro q hq
  have := pageState_markPageFree s p q
  rw [if_neg (by omega)] at this
  rw [(pageState_ext this).1]
  exact h q hq

theorem outsideUsed_init (bootInfo : BootInfo) : OutsideUsed (init bootInfo) :=
  init_inv (fun p _ => isPageUsed_reserveAllPages p) (fun _ p h => h.mark_used p) (fun _ p h => h.mark_free p)
    (fun _ _ h => h) (fun _ h => h) bootInfo

/-- The references the clients hold are the reference counts, page by page, and the
pages used at `init` stay untouched. -/
structure Tracks (bootInfo : BootInfo) (c : Client) : Prop where
  reserved : ∀ p, isPageUsed (init bootInfo) p = true → isPageUsed c.pmm p = true ∧ c.held p = 0
  held : ∀ p, 0 < c.held p → pageState c.pmm p = (true, c.held p)
  free : ∀ p, isPageUsed (init bootInfo) p = false → c.held p = 0 → isPageUsed c.pmm p = false

theorem Tracks.lt (h : Tracks bootInfo c)
    (hp : 0 < c.held p) : p < maxManagedPages := by
  by_contra hge
  have := (h.reserved p (outsideUsed_init bootInfo p (by omega))).2
  omega

theorem Tracks.of_unused (h : Tracks bootInfo c)
    (hp : isPageUsed c.pmm p = false) : c.held p = 0 ∧ isPageUsed (init bootInfo) p = false := by
  constructor
  · by_contra hne
    have := (Prod.mk.inj (h.held p (by omega))).1
    rw [hp] at this
    exact absurd this (by decide)
  · by_contra hne
    have := (h.reserved p (by simpa using hne)).1
    rw [hp] at this
    exact absurd this (by decide)

theorem tracks_init (bootInfo : BootInfo) : Tracks bootInfo ⟨init bootInfo, fun _ => 0⟩ :=
  ⟨fun _ h => ⟨h, rfl⟩, fun _ h => absurd h (Nat.lt_irrefl 0), fun _ h _ => h⟩

section

variable (h : Tracks bootInfo c)
include h

theorem Tracks.unreserved (hp : 0 < c.held p) : isPageUsed (init bootInfo) p = false :=
  Bool.eq_false_iff.2 fun hu => hp.ne' (h.reserved p hu).2

/-- Each page stays as it is, is still held by nobody, or is a free one at `init` with a count of its references. -/
theorem Tracks.change {c' : Client} (hpage : ∀ p, (pageState c'.pmm p = pageState c.pmm p ∧ c'.held p = c.held p) ∨
      (isPageUsed c'.pmm p = isPageUsed c.pmm p ∧ c.held p = 0 ∧ c'.held p = 0) ∨
      (isPageUsed (init bootInfo) p = false ∧ (0 < c'.held p → pageState c'.pmm p = (true, c'.held p)) ∧
        (c'.held p = 0 → isPageUsed c'.pmm p = false))) : Tracks bootInfo c' := by
  refine ⟨fun p hp => ?_, fun p hp => ?_, fun p hp h0 => ?_⟩
  · rcases hpage p with ⟨hst, hheld⟩ | ⟨hu, -, h0⟩ | ⟨hfree, -⟩
    · rw [(pageState_ext hst).1, hheld]
      exact h.reserved p hp
    · exact ⟨hu.trans (h.reserved p hp).1, h0⟩
    · exact absurd (hfree.symm.trans hp) Bool.false_ne_true
  · rcases hpage p with ⟨hst, hheld⟩ | ⟨-, -, h0⟩ | ⟨-, hheld, -⟩
    · rw [hst, hheld]
      exact h.held p (hheld ▸ hp)
    · exact absurd h0 hp.ne'
    · exact hheld hp
  · rcases hpage p with ⟨hst, hheld⟩ | ⟨hu, hbefore, -⟩ | ⟨-, -, hzero⟩
    · rw [(pageState_ext hst).1]
      exact h.free p hp (hheld ▸ h0)
    · exact hu.trans (h.free p hp hbefore)
    · exact hzero h0

theorem Tracks.alloc {n a : ℕ} (halloc : allocPages n c.pmm = (a, s)) (hok : a ≠ invalidPhysicalAddress) :
    Tracks bootInfo ⟨s, fun p => if InRun a n p then c.held p + 1 else c.held p⟩ := by
  obtain ⟨page, rfl, -, -, hfree, hst, -⟩ := allocPages_spec halloc hok
  have hdiv : page * pageSize / pageSize = page := Nat.mul_div_cancel _ (by decide)
  simp only [InRun, hdiv]
  refine h.change fun p => ?_
  dsimp only
  rw [hst p]
  split_ifs with hin
  · obtain ⟨hzero, hinit⟩ := h.of_unused (hfree p hin.1 hin.2)
    exact .inr (.inr ⟨hinit, fun _ => by rw [hzero], fun h0 => h0.elim⟩)
  · exact .inl ⟨rfl, rfl⟩

theorem Tracks.retain (a : ℕ)
    (hbound : ∀ p, (if a = p * pageSize ∧ 0 < c.held p then c.held p + 1 else c.held p) ≤ uint16Max) :
    Tracks bootInfo ⟨retainPage a c.pmm, fun p =>
      if a = p * pageSize ∧ 0 < c.held p then c.held p + 1 else c.held p⟩ := by
  refine h.change fun p => ?_
  have hb := hbound p
  dsimp only
  by_cases ha : a % pageSize ≠ 0 ∨ maxManagedPages ≤ a / pageSize
  · have hnot : ¬(a = p * pageSize ∧ 0 < c.held p) := by
      rintro ⟨rfl, hp⟩
      have := h.lt hp
      simp only [pageSize] at ha
      omega
    rw [retainPage_outside ha, if_neg hnot]
    exact .inl ⟨rfl, rfl⟩
  · obtain ⟨p0, rfl⟩ : ∃ p, a = p * pageSize := ⟨a / pageSize, by simp only [pageSize] at ha ⊢; omega⟩
    have heq : p0 * pageSize = p * pageSize ↔ p = p0 := by simp only [pageSize]; omega
    simp only [heq] at hb ⊢
    have hlt : p0 < maxManagedPages := by simp only [pageSize] at ha; omega
    rw [pageState_retainPage c.pmm p0 p hlt]
    by_cases hpp : p = p0
    · subst hpp
      rw [if_pos rfl]
      rcases Nat.eq_zero_or_pos (c.held p) with h0 | hpos
      · rw [if_neg fun hc => hc.2.ne' h0]
        refine .inr (.inl ⟨?_, h0, h0⟩)
        have hst := congrArg Prod.fst (pageState_retainPage c.pmm p p hlt)
        rw [if_pos rfl] at hst
        refine hst.trans ?_
        rw [pageState]
        cases isPageUsed c.pmm p <;> rfl
      · rw [if_pos ⟨rfl, hpos⟩] at hb ⊢
        have hst : retainState (pageState c.pmm p) = (true, c.held p + 1) := by
          rw [h.held p hpos, retainState_true, if_pos (by omega)]
        exact .inr (.inr ⟨h.unreserved hpos, fun _ => hst, fun h0 => absurd h0 (Nat.succ_ne_zero _)⟩)
    · rw [if_neg hpp, if_neg fun hc => hpp hc.1]
      exact .inl ⟨rfl, rfl⟩

theorem Tracks.give_back (a n : ℕ) (ha : a % pageSize = 0) (hheld : ∀ p, InRun a n p → 0 < c.held p) :
    Tracks bootInfo ⟨freePages a n c.pmm, fun p =>
      if InRun a n p then c.held p - 1 else c.held p⟩ := by
  obtain ⟨page, rfl⟩ : ∃ p, a = p * pageSize := ⟨a / pageSize, by simp only [pageSize] at ha ⊢; omega⟩
  have hdiv : page * pageSize / pageSize = page := Nat.mul_div_cancel _ (by decide)
  simp only [InRun, hdiv] at hheld ⊢
  rcases Nat.eq_zero_or_pos n with rfl | hn
  · have hnot : ∀ p, ¬ (page ≤ p ∧ p < page + 0) := fun p => by omega
    have hsame : freePages (page * pageSize) 0 c.pmm = c.pmm := by unfold freePages; simp
    simp only [hsame, if_neg (hnot _)]
    exact h
  have hle : page + n ≤ maxManagedPages := by
    have := h.lt (hheld (page + n - 1) (by omega))
    omega
  refine h.change fun p => ?_
  have hst := pageState_freePages c.pmm page n hn hle p
  dsimp only
  split_ifs at hst ⊢ with hin
  · have hpos := hheld p hin
    rw [h.held p hpos, releaseState_true] at hst
    refine .inr (.inr ⟨h.unreserved hpos, fun hgt => ?_, fun h0 => ?_⟩)
    · rw [hst, if_pos (by omega)]
    · rw [if_neg (by omega)] at hst
      exact (Prod.mk.inj hst).1
  · exact .inl ⟨hst, rfl⟩

end

theorem tracks_run (h : ClientRun bootInfo c) :
    Tracks bootInfo c := by
  induction h with
  | init => exact tracks_init bootInfo
  | step _ hstep hbound ih =>
    cases hstep with
    | alloc n a s halloc hok => exact ih.alloc halloc hok
    | allocFail n s hfail =>
      rw [allocPages_fail hfail]
      exact ih
    | retain a => exact ih.retain a hbound
    | free a n ha hheld => exact ih.give_back a n ha hheld

theorem markPageUsed_used (h : isPageUsed s q = true) :
    isPageUsed (markPageUsed p s) q = true := by
  have := congrArg Prod.fst (pageState_markPageUsed s p q)
  change isPageUsed (markPageUsed p s) q = _ at this
  rw [this]
  split_ifs
  · rfl
  · exact h

theorem reserveRange_used (base length : ℕ) (h : isPageUsed s q = true) :
    isPageUsed (reserveRange base length s) q = true := by
  unfold reserveRange
  dsimp only
  split_ifs
  · exact h
  · exact h
  all_goals
    exact forUp_inv (P := fun _ s => isPageUsed s q = true) _ _ s
      (fun _ _ _ _ hs => markPageUsed_used hs) h

theorem zero_reserved (bootInfo : BootInfo) : isPageUsed (init bootInfo) 0 = true := by
  refine reserveRange_used _ _ ?_
  generalize bootInfo.regions.foldl initRegion reserveAllPages = s
  have hone : reserveRange 0 pageSize s = markPageUsed 0 s := by
    have h1 : ¬ (pageSize = 0 ∨ u64 (0 + pageSize) < 0) := by decide
    have h2 : alignDown 0 pageSize / pageSize = 0 := by decide
    have h3 : alignUp (u64 (0 + pageSize)) pageSize / pageSize = 1 := by decide
    simp only [reserveRange, if_neg h1, h2, h3]
    rfl
  have := congrArg Prod.fst (pageState_markPageUsed s 0 0)
  change isPageUsed (markPageUsed 0 s) 0 = _ at this
  rw [hone, this]
  split_ifs with hc
  · rfl
  · cases hu : isPageUsed s 0 with
    | true => exact hu
    | false => exact absurd ⟨rfl, by decide, hu⟩ hc

theorem wf_clientRun (h : ClientRun bootInfo c) : Wf c.pmm := by
  induction h with
  | init => exact wf_init bootInfo
  | step _ hstep _ ih =>
    cases hstep with
    | alloc n a s halloc hok =>
      have := ih.alloc_pages n
      rwa [halloc] at this
    | allocFail n s hfail =>
      have := ih.alloc_pages n
      rwa [hfail] at this
    | retain a => exact ih.retain_page a
    | free a n ha hheld => exact ih.free_pages a n

/-- A page without an owner has no reference and is managed. -/
theorem ClientRun.free_page (h : ClientRun bootInfo c)
    (hq : isPageUsed c.pmm q = false) : pageState c.pmm q = (false, 0) ∧ q < maxManagedPages := by
  refine ⟨Prod.ext hq ((wf_clientRun h).clear q hq), ?_⟩
  by_contra hge
  have h1 := outsideUsed_init bootInfo q (by omega)
  rw [((tracks_run h).of_unused hq).2] at h1
  exact Bool.noConfusion h1

/-- The page allocator from any `init` state: the counters, the bitmap and the reference
counts agree after any calls, and with disciplined clients a run handed out by
`alloc_pages` meets no page that is still referenced or was reserved at `init`. -/
theorem pmm_consistent_and_exclusive (bootInfo : BootInfo) :
    (∀ ops : List Op,
      let s := run (init bootInfo) ops
      s.allocatorStats.freePages + s.allocatorStats.usedPages = s.allocatorStats.managedPages ∧
      s.allocatorStats.managedPages = 2 ^ 20 ∧
      s.allocatorStats.usedPages =
        ((Finset.range (2 ^ 20)).filter fun p => isPageUsed s p = true).card ∧
      (∀ p, isPageUsed s p = false → s.pageRefcounts p = 0) ∧
      s.nextSearchPage < 2 ^ 20) ∧
    (∀ c : Client, ClientRun bootInfo c → ∀ (n a : ℕ) (s : State), allocPages n c.pmm = (a, s) →
      a ≠ invalidPhysicalAddress → ∀ p, InRun a n p →
        c.held p = 0 ∧ isPageUsed (init bootInfo) p = false) := by
  refine ⟨fun ops => ?_, fun c hrun n a s halloc hok p hp => ?_⟩
  · have h := wf_run ops _ (wf_init bootInfo)
    exact ⟨by rw [h.total, h.managed], h.managed, h.used, h.clear, h.hint⟩
  · obtain ⟨page, rfl, -, -, hfree, -, -⟩ := allocPages_spec halloc hok
    have hdiv : page * pageSize / pageSize = page := Nat.mul_div_cancel _ (by decide)
    simp only [InRun, hdiv] at hp
    exact (tracks_run hrun).of_unused (hfree p hp.1 hp.2)

/-- No page is lost: those in use are the ones reserved at `init` and the ones some client holds, and every page that is
not held is counted as free again. -/
theorem pages_conserved (hrun : ClientRun bootInfo c) :
    (∀ p, isPageUsed c.pmm p = true ↔ isPageUsed (init bootInfo) p = true ∨ 0 < c.held p) ∧
      c.pmm.allocatorStats.freePages + ((Finset.range maxManagedPages).filter fun p => 0 < c.held p).card =
        (init bootInfo).allocatorStats.freePages := by
  have h := tracks_run hrun
  have hused : ∀ p, isPageUsed c.pmm p = true ↔ isPageUsed (init bootInfo) p = true ∨ 0 < c.held p := by
    intro p
    refine ⟨fun hu => ?_, fun hu => hu.elim (fun hr => (h.reserved p hr).1) fun hp => (Prod.mk.inj (h.held p hp)).1⟩
    by_contra hno
    obtain ⟨hr, h0⟩ := not_or.mp hno
    exact absurd (h.free p (Bool.eq_false_of_not_eq_true hr) (Nat.eq_zero_of_not_pos h0)) (by rw [hu]; decide)
  have hcount : usedCount c.pmm = usedCount (init bootInfo) +
      ((Finset.range maxManagedPages).filter fun p => 0 < c.held p).card := by
    simp only [usedCount, hused]
    rw [Finset.filter_or, Finset.card_union_of_disjoint]
    exact Finset.disjoint_filter.mpr fun p _ hr hp => hp.ne' (h.reserved p hr).2
  have htotal := (wf_clientRun hrun).total
  have htotal₀ := (wf_init bootInfo).total
  rw [(wf_clientRun hrun).used] at htotal
  rw [(wf_init bootInfo).used] at htotal₀
  exact ⟨hused, by omega⟩

theorem pages_conserved_one : isPageUsed (allocPages 1 (init ⟨[⟨0, 0x10000, .usable⟩], 0, 0⟩)).2 1 = true := by
  have hone : ∀ b, (allocPages 1 (init b)).1 = 0x1000 → isPageUsed (allocPages 1 (init b)).2 1 = true := by
    intro b hb
    have hrun := ClientRun.step .init (.alloc _ 1 _ _ (Prod.ext hb rfl) (by decide))
      fun p => by dsimp only; split_ifs <;> decide
    exact ((pages_conserved hrun).1 1).mpr (.inr (by simp [InRun, pageSize]))
  exact hone _ (by decide +kernel)

end Tori.Pmm
