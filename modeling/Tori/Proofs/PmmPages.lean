import Tori.Proofs.PmmInvariant
import Tori.Spec.PmmPages

/-! What the page allocator does page by page: the pages `init` frees, the run `alloc_pages` takes and the references of
one page. -/

namespace Tori.Pmm

open Word Loop

variable {s : State} {base length page n p q : ℕ} {bootInfo : BootInfo}

theorem max_eq : maxManagedPages = 1048576 := rfl

theorem size_eq : pageSize = 4096 := rfl

/-! ### `init` -/

theorem used_markPageFree (hp : p < maxManagedPages) :
    isPageUsed (markPageFree p s) q = false ↔ isPageUsed s q = false ∨ q = p := by
  have h : isPageUsed (markPageFree p s) q = _ := congrArg Prod.fst (pageState_markPageFree s p q)
  rw [h]
  by_cases hq : q = p
  · subst hq
    cases hu : isPageUsed s q <;> simp [pageState, hu, hp]
  · simp [pageState, hq]

theorem used_freeRangePage (b : Bool) (hp : p < maxManagedPages) :
    isPageUsed (freeRangePage b p s) q = false ↔ isPageUsed s q = false ∨ q = p := by
  have hstats : ∀ s' : State, isPageUsed (addReclaimed s') q = isPageUsed s' q := fun _ => rfl
  unfold freeRangePage
  split_ifs with hu
  · rw [hstats, used_markPageFree hp]
  · exact used_markPageFree hp
  · constructor
    · exact .inl
    · rintro (h | rfl)
      · exact h
      · simpa using hu

theorem used_freeLoop (b : Bool) (hle : page + n ≤ maxManagedPages) :
    isPageUsed (forUp (freeRangePage b) n page s) q = false ↔
      isPageUsed s q = false ∨ page ≤ q ∧ q < page + n := by
  refine forUp_inv (P := fun i s' => isPageUsed s' q = false ↔ isPageUsed s q = false ∨ page ≤ q ∧ q < i) n page s ?_ ?_
  · intro i s' h1 h2 ih
    rw [used_freeRangePage b (by omega), ih, or_assoc]
    refine or_congr_right ⟨?_, ?_⟩ <;> omega
  · constructor
    · exact .inl
    · rintro (h | h)
      · exact h
      · omega

/-- `free_range` on one page: a base in the last page of the address space is rounded up to 0. -/
theorem used_freeRange (b : Bool) (hbase : base < 2 ^ 64) (hlength : length < 2 ^ 64) (hq : q < maxManagedPages) :
    isPageUsed (freeRange base length b s) q = false ↔
      isPageUsed s q = false ∨ length ≠ 0 ∧ base + length < 2 ^ 64 ∧
        (2 ^ 64 - pageSize < base ∨ base ≤ q * pageSize ∧ (q + 1) * pageSize ≤ base + length) := by
  have hstats : ∀ (k : ℕ) (s' : State), isPageUsed (addSkipped k s') q = isPageUsed s' q := fun _ _ => rfl
  have hmax := max_eq
  unfold freeRange
  by_cases hfits : length = 0 ∨ u64 (base + length) < base
  · rw [if_pos hfits]
    unfold u64 at hfits
    exact (or_iff_left (by omega)).symm
  · have hend : base + length < 2 ^ 64 := by
      unfold u64 at hfits
      omega
    rw [if_neg hfits, show pageSize = 2 ^ 12 from rfl, alignUp_eq base 12 (by decide),
      alignDown_eq 12 (u64_lt _) (by decide), u64_of_lt hend]
    unfold u64
    dsimp only
    split_ifs with h1 h2 h3
    · exact (or_iff_left (by omega)).symm
    · rw [hstats]
      exact (or_iff_left (by omega)).symm
    · rw [used_freeLoop b (by omega), hstats]
      exact or_congr_right ⟨by omega, by omega⟩
    · rw [used_freeLoop b (by omega)]
      exact or_congr_right ⟨by omega, by omega⟩

theorem used_markPageUsed (hp : p < maxManagedPages) :
    isPageUsed (markPageUsed p s) q = true ↔ isPageUsed s q = true ∨ q = p := by
  have h : isPageUsed (markPageUsed p s) q = _ := congrArg Prod.fst (pageState_markPageUsed s p q)
  rw [h]
  by_cases hq : q = p
  · subst hq
    cases hu : isPageUsed s q <;> simp [pageState, hu, hp]
  · simp [pageState, hq]

theorem used_reserveLoop (hle : page + n ≤ maxManagedPages) :
    isPageUsed (forUp markPageUsed n page s) q = true ↔ isPageUsed s q = true ∨ page ≤ q ∧ q < page + n := by
  refine forUp_inv (P := fun i s' => isPageUsed s' q = true ↔ isPageUsed s q = true ∨ page ≤ q ∧ q < i) n page s ?_ ?_
  · intro i s' h1 h2 ih
    rw [used_markPageUsed (by omega), ih, or_assoc]
    refine or_congr_right ⟨?_, ?_⟩ <;> omega
  · exact (or_iff_left (by omega)).symm

/-- `reserve_range` on one page: an end in the last page of the address space is rounded up to 0. -/
theorem used_reserveRange (hbase : base < 2 ^ 64) (hlength : length < 2 ^ 64) (hq : q < maxManagedPages) :
    isPageUsed (reserveRange base length s) q = true ↔
      isPageUsed s q = true ∨ length ≠ 0 ∧ base + length ≤ 2 ^ 64 - pageSize ∧
        base < (q + 1) * pageSize ∧ q * pageSize < base + length := by
  unfold reserveRange
  by_cases hfits : length = 0 ∨ u64 (base + length) < base
  · rw [if_pos hfits]
    unfold u64 at hfits
    exact (or_iff_left (by rw [size_eq]; omega)).symm
  · have hend : base + length < 2 ^ 64 := by
      unfold u64 at hfits
      omega
    rw [if_neg hfits, show pageSize = 2 ^ 12 from rfl, alignUp_eq _ 12 (by decide),
      alignDown_eq 12 hbase (by decide), u64_of_lt hend]
    unfold u64
    dsimp only
    split_ifs with h1 h2
    · exact (or_iff_left (by omega)).symm
    · rw [used_reserveLoop (by omega)]
      exact or_congr_right ⟨by omega, by omega⟩
    · by_cases hempty : (base + length + 2 ^ 12 - 1) % 2 ^ 64 / 2 ^ 12 * 2 ^ 12 / 2 ^ 12 ≤ base / 2 ^ 12 * 2 ^ 12 / 2 ^ 12
      · rw [Nat.sub_eq_zero_of_le hempty, forUp_zero]
        exact (or_iff_left (by omega)).symm
      · rw [used_reserveLoop (by omega)]
        exact or_congr_right ⟨by omega, by omega⟩

variable {r : MemoryRegion} {op : RefOp} {ops : List RefOp}

theorem MemoryRegion.holds_iff : r.Holds p ↔ r.base ≤ p * pageSize ∧ (p + 1) * pageSize ≤ r.base + r.length := by
  unfold Holds
  rw [size_eq]
  constructor
  · intro h
    obtain ⟨h1, -⟩ := h (p * 4096) (by omega)
    obtain ⟨-, h2⟩ := h ((p + 1) * 4096 - 1) (by omega)
    exact ⟨h1, by omega⟩
  · intro h x hx
    omega

theorem inKernel_iff : bootInfo.InKernel p ↔ bootInfo.kernelPhysicalSize ≠ 0 ∧
    bootInfo.kernelPhysicalBase < (p + 1) * pageSize ∧
      p * pageSize < bootInfo.kernelPhysicalBase + bootInfo.kernelPhysicalSize := by
  unfold BootInfo.InKernel
  rw [size_eq]
  constructor
  · intro ⟨x, hx, h1, h2⟩
    omega
  · intro ⟨h0, h1, h2⟩
    exact ⟨max bootInfo.kernelPhysicalBase (p * 4096), by omega, by omega, by omega⟩

theorem used_initRegion (hr : r.base < 2 ^ 64 ∧ r.length < 2 ^ 64) (hq : q < maxManagedPages) :
    isPageUsed (initRegion s r) q = false ↔
      isPageUsed s q = false ∨ r.Valid ∧ (2 ^ 64 - pageSize < r.base ∨ r.Holds q) := by
  unfold initRegion MemoryRegion.Valid
  rw [MemoryRegion.holds_iff]
  split_ifs with hkind
  · rw [used_freeRange _ hr.1 hr.2 hq]
    simp only [hkind, true_and, and_assoc]
  · simp [hkind]

theorem used_regions {rs : List MemoryRegion} (hrs : ∀ r ∈ rs, r.base < 2 ^ 64 ∧ r.length < 2 ^ 64)
    (hq : q < maxManagedPages) :
    isPageUsed (rs.foldl initRegion s) q = false ↔
      isPageUsed s q = false ∨ ∃ r ∈ rs, r.Valid ∧ (2 ^ 64 - pageSize < r.base ∨ r.Holds q) := by
  induction rs generalizing s with
  | nil => simp
  | cons r rs ih =>
    rw [List.foldl_cons, ih fun r' h => hrs r' (List.mem_cons_of_mem _ h),
      used_initRegion (hrs r List.mem_cons_self) hq, or_assoc, List.exists_mem_cons_iff]

theorem used_reserveRange_false (hbase : base < 2 ^ 64) (hlength : length < 2 ^ 64) (hq : q < maxManagedPages) :
    isPageUsed (reserveRange base length s) q = false ↔
      isPageUsed s q = false ∧ ¬(length ≠ 0 ∧ base + length ≤ 2 ^ 64 - pageSize ∧
        base < (q + 1) * pageSize ∧ q * pageSize < base + length) := by
  rw [← Bool.not_eq_true, used_reserveRange hbase hlength hq, not_or, Bool.not_eq_true]

/-- The pages free after `init`. -/
theorem free_init_iff (hw : bootInfo.Words) (hq : q < maxManagedPages) :
    isPageUsed (init bootInfo) q = false ↔
      1 ≤ q ∧ ¬(bootInfo.InKernel q ∧ ¬bootInfo.WrappingKernel) ∧ (bootInfo.WrappingRegion ∨ bootInfo.Usable q) := by
  have hregions : (∃ r ∈ bootInfo.regions, r.Valid ∧ (2 ^ 64 - pageSize < r.base ∨ r.Holds q)) ↔
      bootInfo.WrappingRegion ∨ bootInfo.Usable q := by
    simp only [BootInfo.WrappingRegion, BootInfo.Usable, and_or_left, exists_or]
  have hzero : ¬(pageSize ≠ 0 ∧ 0 + pageSize ≤ 2 ^ 64 - pageSize ∧ 0 < (q + 1) * pageSize ∧ q * pageSize < 0 + pageSize) ↔
      1 ≤ q := by
    rw [size_eq]
    omega
  unfold init
  rw [used_reserveRange_false hw.kernel.1 hw.kernel.2 hq, used_reserveRange_false (by decide) (by decide) hq,
    used_regions hw.regions hq, isPageUsed_reserveAllPages, hregions, hzero, inKernel_iff]
  unfold BootInfo.WrappingKernel
  rw [not_lt]
  constructor
  · intro ⟨⟨hfree, hpos⟩, hkernel⟩
    exact ⟨hpos, fun ⟨⟨h0, h1, h2⟩, h3⟩ => hkernel ⟨h0, h3, h1, h2⟩, hfree.resolve_left nofun⟩
  · intro ⟨hpos, hkernel, hfree⟩
    exact ⟨⟨.inr hfree, hpos⟩, fun ⟨h0, h3, h1, h2⟩ => hkernel ⟨⟨h0, h1, h2⟩, h3⟩⟩

/-- `init` frees exactly the usable pages, but for addresses that wrap: a usable region that begins in the last page of
the address space frees everything, a kernel image that ends there is not reserved. -/
theorem init_exact_iff (hw : bootInfo.Words) :
    (∀ p < maxManagedPages, isPageUsed (init bootInfo) p = false ↔
      1 ≤ p ∧ ¬bootInfo.InKernel p ∧ bootInfo.Usable p) ↔
    ∀ p < maxManagedPages, 1 ≤ p →
      (bootInfo.WrappingRegion → bootInfo.Usable p ∨ bootInfo.InKernel p ∧ ¬bootInfo.WrappingKernel) ∧
      (bootInfo.WrappingKernel → bootInfo.InKernel p → ¬bootInfo.Usable p) := by
  refine forall₂_congr fun p hp => ?_
  rw [free_init_iff hw hp]
  by_cases hregion : bootInfo.WrappingRegion <;> by_cases hkernel : bootInfo.WrappingKernel <;>
    simp only [hregion, hkernel, not_true_eq_false, not_false_eq_true, and_false, and_true, true_or, false_or, forall_const,
      false_imp_iff, or_false, iff_self, implies_true]
  · tauto
  · tauto
  · tauto

/-- 640 KiB, and 15 MiB from 1 MiB on with a kernel of 1 MiB at 2 MiB. -/
def ordinaryMap : BootInfo where
  regions := [⟨0, 0xA0000, .usable⟩, ⟨0xA0000, 0x60000, .reserved⟩, ⟨0x100000, 0xF00000, .bootloaderReclaimable⟩]
  kernelPhysicalBase := 0x200000
  kernelPhysicalSize := 0x100000

theorem ordinaryMap_words : ordinaryMap.Words := ⟨by decide, by decide⟩

theorem init_ordinaryMap : isPageUsed (init ordinaryMap) 1 = false ↔
    1 ≤ 1 ∧ ¬ordinaryMap.InKernel 1 ∧ ordinaryMap.Usable 1 := by
  have hregion : ¬ordinaryMap.WrappingRegion := by
    unfold BootInfo.WrappingRegion ordinaryMap MemoryRegion.Valid
    decide
  have hkernel : ¬ordinaryMap.WrappingKernel := by
    unfold BootInfo.WrappingKernel
    decide
  exact (init_exact_iff ordinaryMap_words).mpr
    (fun _ _ _ => ⟨fun h => absurd h hregion, fun h => absurd h hkernel⟩) 1 (by decide)

/-- One usable byte at `2 ^ 64 - 4095`. -/
def wrappingMap : BootInfo where
  regions := [⟨2 ^ 64 - 4095, 1, .usable⟩]
  kernelPhysicalBase := 0x200000
  kernelPhysicalSize := 0x100000

/-- Page 1 is handed out, and no region holds it. -/
theorem init_wrappingMap : wrappingMap.Words ∧ isPageUsed (init wrappingMap) 1 = false ∧ ¬wrappingMap.Usable 1 := by
  have hw : wrappingMap.Words := ⟨by decide, by decide⟩
  have hfree : isPageUsed (init wrappingMap) 1 = false := by
    refine (free_init_iff hw (by decide)).mpr ⟨le_rfl, ?_, .inl ?_⟩
    · rw [inKernel_iff]
      exact fun h => absurd h.1 (by decide)
    · exact ⟨_, List.mem_cons_self, ⟨by decide, by decide, by decide⟩, by decide⟩
  refine ⟨hw, hfree, ?_⟩
  intro ⟨r, hr, _, hholds⟩
  rw [List.mem_singleton.mp hr, MemoryRegion.holds_iff] at hholds
  exact absurd hholds (by decide)

/-! ### `alloc_pages` -/

theorem pageRangeFree_iff (hn : 0 < n) (hle : n ≤ maxManagedPages) : pageRangeFree s page n = true ↔ FreeRun s page n := by
  constructor
  · intro h
    obtain ⟨-, -, hfits, hfree⟩ := pageRangeFree_spec h
    exact ⟨hfits hle, hfree⟩
  · intro ⟨hfits, hfree⟩
    have hmax := max_eq
    have hnone : findUp (fun q => isPageUsed s q) n page = none := by
      rw [findUp_eq_find?, List.find?_eq_none]
      intro q hq
      rw [List.mem_range'_1] at hq
      simp [hfree q hq.1 hq.2]
    unfold pageRangeFree
    rw [u64_of_lt (by omega), if_neg (by omega), if_neg (by omega), hnone]
    rfl

theorem exists_from (s : State) (hpage : page < maxManagedPages) : ∃ offset < maxManagedPages, s.from offset = page := by
  refine ⟨(page + maxManagedPages - s.nextSearchPage % maxManagedPages) % maxManagedPages, Nat.mod_lt _ (by decide), ?_⟩
  unfold State.from
  rw [max_eq] at hpage ⊢
  omega

theorem findRun_eq_none (hn : 0 < n) (hle : n ≤ maxManagedPages) : findRun s n = none ↔ ∀ page, ¬FreeRun s page n := by
  unfold findRun
  rw [Option.map_eq_none_iff, findUp_eq_find?, List.find?_eq_none]
  constructor
  · intro h page hrun
    have hpage : page < maxManagedPages := lt_of_lt_of_le (by omega) hrun.1
    obtain ⟨offset, hlt, rfl⟩ := exists_from s hpage
    exact h offset (List.mem_range'_1.mpr ⟨Nat.zero_le _, by omega⟩) ((pageRangeFree_iff hn hle).mpr hrun)
  · intro h offset _ hfree
    exact h _ ((pageRangeFree_iff hn hle).mp hfree)

theorem findRun_eq_some (hn : 0 < n) (hle : n ≤ maxManagedPages) (h : findRun s n = some page) :
    ∃ offset < maxManagedPages, page = s.from offset ∧ FreeRun s page n ∧ ∀ o < offset, ¬FreeRun s (s.from o) n := by
  obtain ⟨offset, hoffset, rfl⟩ := Option.map_eq_some_iff.mp h
  rw [findUp_eq_find?, List.find?_range'_eq_some] at hoffset
  obtain ⟨hfree, hmem, hfirst⟩ := hoffset
  rw [List.mem_range'_1] at hmem
  refine ⟨offset, by omega, rfl, (pageRangeFree_iff hn hle).mp hfree, fun o ho hrun => ?_⟩
  have hnot := hfirst o (Nat.zero_le _) ho
  rw [Bool.not_eq_true', ← Bool.not_eq_true] at hnot
  exact hnot ((pageRangeFree_iff hn hle).mpr hrun)

theorem address_valid : page * pageSize ≠ invalidPhysicalAddress := by
  unfold pageSize invalidPhysicalAddress
  omega

theorem allocPages_unmanaged (h : n = 0 ∨ ∀ page, ¬FreeRun s page n) : allocPages n s = (invalidPhysicalAddress, s) := by
  unfold allocPages
  by_cases hn : n = 0 ∨ n > maxManagedPages
  · rw [if_pos hn]
  · rw [if_neg hn, (findRun_eq_none (by omega) (by omega)).mpr (h.resolve_left fun h0 => hn (.inl h0))]

theorem allocPages_first_run (hn : n ≠ 0) (h : ∃ page, FreeRun s page n) :
    ∃ offset < maxManagedPages, (allocPages n s).1 = s.from offset * pageSize ∧
      FreeRun s (s.from offset) n ∧ (∀ o < offset, ¬FreeRun s (s.from o) n) ∧
      ∀ q, pageState (allocPages n s).2 q =
        if s.from offset ≤ q ∧ q < s.from offset + n then (true, 1) else pageState s q := by
  obtain ⟨page₀, hrun₀⟩ := h
  have hle : n ≤ maxManagedPages := le_trans (Nat.le_add_left _ _) hrun₀.1
  cases hfind : findRun s n with
  | none => exact absurd hrun₀ ((findRun_eq_none (by omega) hle).mp hfind page₀)
  | some page =>
    obtain ⟨offset, hlt, rfl, hrun, hfirst⟩ := findRun_eq_some (by omega) hle hfind
    have halloc : allocPages n s = (s.from offset * pageSize, { forUp markPageUsed n (s.from offset) s with
        nextSearchPage := (s.from offset + n) % maxManagedPages }) := by
      unfold allocPages
      rw [if_neg (by omega), hfind]
    rw [halloc]
    exact ⟨offset, hlt, rfl, hrun, hfirst, pageState_markRun s _ n hrun.1 hrun.2⟩

/-- `alloc_pages` fails only where no run is free, and otherwise takes the first one from the hint on. -/
theorem allocPages_complete (s : State) (n : ℕ) :
    ((allocPages n s).1 = invalidPhysicalAddress ↔ n = 0 ∨ ¬∃ page, FreeRun s page n) ∧
    ((allocPages n s).1 = invalidPhysicalAddress → (allocPages n s).2 = s) ∧
    ((allocPages n s).1 ≠ invalidPhysicalAddress → ∃ offset < maxManagedPages,
      (allocPages n s).1 = s.from offset * pageSize ∧ FreeRun s (s.from offset) n ∧
      (∀ o < offset, ¬FreeRun s (s.from o) n) ∧
      ∀ q, pageState (allocPages n s).2 q =
        if s.from offset ≤ q ∧ q < s.from offset + n then (true, 1) else pageState s q) := by
  by_cases hrun : n = 0 ∨ ¬∃ page, FreeRun s page n
  · have hfail := allocPages_unmanaged (hrun.imp id not_exists.mp)
    rw [hfail]
    exact ⟨⟨fun _ => hrun, fun _ => rfl⟩, fun _ => rfl, fun h => absurd rfl h⟩
  · rw [not_or, not_not] at hrun
    obtain ⟨offset, hlt, haddr, hrest⟩ := allocPages_first_run hrun.1 hrun.2
    have hvalid : (allocPages n s).1 ≠ invalidPhysicalAddress := by
      rw [haddr]
      exact address_valid
    refine ⟨⟨fun h => absurd h hvalid, ?_⟩, fun h => absurd h hvalid, fun _ => ⟨offset, hlt, haddr, hrest⟩⟩
    rintro (h | h)
    · exact absurd h hrun.1
    · exact absurd hrun.2 h

/-! ### References of one page -/

theorem pageState_refOp (hp : p < maxManagedPages) (op : RefOp) (s : State) :
    pageState (op.apply p s) p = match op with
      | .retain => retainState (pageState s p)
      | .free => releaseState (pageState s p) := by
  cases op with
  | retain =>
    have h := pageState_retainPage s p p hp
    rwa [if_pos rfl] at h
  | free =>
    have h := pageState_freePages s p 1 Nat.one_pos hp p
    rwa [if_pos ⟨le_rfl, Nat.lt_succ_self p⟩] at h

theorem runRefs_append (ops more : List RefOp) : runRefs p (ops ++ more) s = runRefs p more (runRefs p ops s) :=
  List.foldl_append

theorem pageState_frees (hp : p < maxManagedPages) (k : ℕ) :
    pageState (runRefs p (List.replicate k .free) s) p = releaseState^[k] (pageState s p) := by
  induction k with
  | zero => rfl
  | succ k ih =>
    rw [List.replicate_succ', runRefs_append, Function.iterate_succ_apply', ← ih]
    exact pageState_refOp hp .free _

theorem pageState_retains (hp : p < maxManagedPages) (k : ℕ) :
    pageState (runRefs p (List.replicate k .retain) s) p = retainState^[k] (pageState s p) := by
  induction k with
  | zero => rfl
  | succ k ih =>
    rw [List.replicate_succ', runRefs_append, Function.iterate_succ_apply', ← ih]
    exact pageState_refOp hp .retain _

/-- There are never more references than the count can hold. -/
def Countable (ops : List RefOp) : Prop := ∀ pre, pre <+: ops → 1 + pre.count .retain ≤ uint16Max + pre.count .free

theorem live_concat :
    Live (ops ++ [op]) ↔ Live ops ∧ (ops ++ [op]).count .free ≤ (ops ++ [op]).count .retain := by
  unfold Live
  simp only [List.prefix_concat_iff, or_imp, forall_and, forall_eq]
  exact and_comm

theorem countable_concat :
    Countable (ops ++ [op]) ↔
      Countable ops ∧ 1 + (ops ++ [op]).count .retain ≤ uint16Max + (ops ++ [op]).count .free := by
  unfold Countable
  simp only [List.prefix_concat_iff, or_imp, forall_and, forall_eq]
  exact and_comm

/-- What the page's entry says after the calls `ops`. -/
inductive Counted (ops : List RefOp) : Bool × ℕ → Prop
  | exact {r : ℕ} (hr : 1 ≤ r) (hmax : r ≤ uint16Max) (hcount : Countable ops)
      (heq : r + ops.count .free = 1 + ops.count .retain) : Counted ops (true, r)
  | short {r : ℕ} (hr : 1 ≤ r) (hmax : r ≤ uint16Max) (hcount : ¬Countable ops)
      (hlt : r + ops.count .free < 1 + ops.count .retain) : Counted ops (true, r)
  | lost {r : ℕ} (hcount : ¬Countable ops) : Counted ops (false, r)

variable {ops : List RefOp} {st : Bool × ℕ}

theorem Counted.retain (h : Counted ops st) : Counted (ops ++ [.retain]) (retainState st) := by
  have hretain : (ops ++ [RefOp.retain]).count .retain = ops.count .retain + 1 := by simp
  have hfree : (ops ++ [RefOp.retain]).count .free = ops.count .free := by simp
  have hshort : ¬Countable ops → ¬Countable (ops ++ [.retain]) := fun hnot hc => hnot (countable_concat.mp hc).1
  cases h with
  | @exact r hr hmax hcount heq =>
    rw [retainState_true]
    by_cases hfull : r = uint16Max
    · rw [if_neg (not_not_intro hfull)]
      refine .short hr hmax (fun hc => ?_) (by omega)
      have := (countable_concat.mp hc).2
      omega
    · rw [if_pos hfull]
      exact .exact (by omega) (by omega) (countable_concat.mpr ⟨hcount, by omega⟩) (by omega)
  | @short r hr hmax hcount hlt =>
    rw [retainState_true]
    by_cases hfull : r = uint16Max
    · rw [if_neg (not_not_intro hfull)]
      exact .short hr hmax (hshort hcount) (by omega)
    · rw [if_pos hfull]
      exact .short (by omega) (by omega) (hshort hcount) (by omega)
  | lost hcount => exact .lost (hshort hcount)

theorem Counted.free (hlive : Live (ops ++ [.free])) (h : Counted ops st) : Counted (ops ++ [.free]) (releaseState st) := by
  have hretain : (ops ++ [RefOp.free]).count .retain = ops.count .retain := by simp
  have hfree : (ops ++ [RefOp.free]).count .free = ops.count .free + 1 := by simp
  have hshort : ¬Countable ops → ¬Countable (ops ++ [.free]) := fun hnot hc => hnot (countable_concat.mp hc).1
  have hle := (live_concat.mp hlive).2
  cases h with
  | @exact r hr hmax hcount heq =>
    rw [releaseState_true, if_pos (by omega)]
    exact .exact (by omega) (by omega) (countable_concat.mpr ⟨hcount, by omega⟩) (by omega)
  | @short r hr hmax hcount hlt =>
    rw [releaseState_true]
    by_cases hone : r > 1
    · rw [if_pos hone]
      exact .short (by omega) (by omega) (hshort hcount) (by omega)
    · rw [if_neg hone]
      exact .lost (hshort hcount)
  | lost hcount => exact .lost (hshort hcount)

theorem counted_run (hp : p < maxManagedPages) (hs : pageState s p = (true, 1)) (hlive : Live ops) :
    Counted ops (pageState (runRefs p ops s) p) := by
  induction ops using List.reverseRecOn with
  | nil =>
    rw [show pageState (runRefs p [] s) p = (true, 1) from hs]
    exact .exact le_rfl (by decide) (fun pre hpre => by simp [List.prefix_nil.mp hpre, uint16Max]) rfl
  | append_singleton ops op ih =>
    have hbefore := ih (live_concat.mp hlive).1
    rw [runRefs_append]
    change Counted _ (pageState (op.apply p _) p)
    rw [pageState_refOp hp]
    cases op with
    | retain => exact hbefore.retain
    | free => exact hbefore.free hlive

/-- After the calls `ops` on an allocated page, the page is freed exactly by the last of its references, if and only if
there were never more references than the 16-bit count holds. -/
theorem references_kept_iff (hp : p < maxManagedPages) (hs : pageState s p = (true, 1)) (hlive : Live ops) :
    (∀ k, isPageUsed (runRefs p (ops ++ List.replicate k .free) s) p = true ↔
      ops.count .free + k ≤ ops.count .retain) ↔ Countable ops := by
  have hcounted := counted_run hp hs hlive
  generalize hst : pageState (runRefs p ops s) p = st at hcounted
  have hle := hlive ops (List.prefix_refl ops)
  have hused : ∀ k {u : Bool} {r : ℕ}, pageState (runRefs p (ops ++ List.replicate k .free) s) p = (u, r) →
      isPageUsed (runRefs p (ops ++ List.replicate k .free) s) p = u := fun _ _ _ h => congrArg Prod.fst h
  cases hcounted with
  | @exact r hr hmax hcount heq =>
    refine iff_of_true (fun k => ?_) hcount
    have hfrees := pageState_frees (s := runRefs p ops s) hp k
    rw [← runRefs_append, hst, release_iter_true hr] at hfrees
    by_cases hk : k < r
    · rw [if_pos hk] at hfrees
      exact iff_of_true (hused k hfrees) (by omega)
    · rw [if_neg hk] at hfrees
      exact iff_of_false (ne_true_of_eq_false (hused k hfrees)) (by omega)
  | @short r hr hmax hcount hlt =>
    refine iff_of_false (fun hlaw => ?_) hcount
    have hfrees := pageState_frees (s := runRefs p ops s) hp r
    rw [← runRefs_append, hst, release_iter_true hr, if_neg (lt_irrefl r)] at hfrees
    exact ne_true_of_eq_false (hused r hfrees) ((hlaw r).mpr (by omega))
  | lost hcount =>
    refine iff_of_false (fun hlaw => ?_) hcount
    have hnow := (hlaw 0).mpr hle
    rw [List.replicate_zero, List.append_nil] at hnow
    exact absurd hnow (ne_true_of_eq_false (congrArg Prod.fst hst))

theorem first_page : ∃ p < maxManagedPages, (allocPage (init ordinaryMap)).1 = p * pageSize ∧
    pageState (allocPage (init ordinaryMap)).2 p = (true, 1) := by
  have hfree : isPageUsed (init ordinaryMap) 1 = false := by
    refine (free_init_iff ⟨by decide, by decide⟩ (by decide)).mpr ⟨le_rfl, ?_, .inr ?_⟩
    · rw [inKernel_iff]
      exact fun h => absurd h.1 (by decide)
    · exact ⟨_, List.mem_cons_self, ⟨by decide, by decide, by decide⟩, MemoryRegion.holds_iff.mpr (by decide)⟩
  obtain ⟨offset, -, haddr, hrun, -, hpages⟩ := allocPages_first_run Nat.one_ne_zero
    ⟨1, by decide, fun q h1 h2 => by rwa [show q = 1 by omega]⟩
  have hself := hpages ((init ordinaryMap).from offset)
  rw [if_pos ⟨le_rfl, Nat.lt_succ_self _⟩] at hself
  exact ⟨_, hrun.1, haddr, hself⟩

theorem references_kept_short : ∃ p, (allocPage (init ordinaryMap)).1 = p * pageSize ∧
    ∀ k, isPageUsed (runRefs p ([.retain, .free, .retain] ++ List.replicate k .free) (allocPage (init ordinaryMap)).2) p =
      true ↔ 1 + k ≤ 2 := by
  obtain ⟨p, hp, haddr, hstate⟩ := first_page
  have hprees : ∀ P : List RefOp → Prop, P [] → P [.retain] → P [.retain, .free] → P [.retain, .free, .retain] →
      ∀ pre, pre <+: [.retain, .free, .retain] → P pre := by
    intro P h0 h1 h2 h3 pre hpre
    have := (List.mem_inits _ _).mpr hpre
    simp only [List.inits, List.map_cons, List.map_nil, List.mem_cons, List.not_mem_nil, or_false] at this
    rcases this with rfl | rfl | rfl | rfl
    · exact h0
    · exact h1
    · exact h2
    · exact h3
  refine ⟨p, haddr, (references_kept_iff hp hstate ?_).mpr ?_⟩
  · exact hprees _ (by decide) (by decide) (by decide) (by decide)
  · exact hprees _ (by decide) (by decide) (by decide) (by decide)

/-- 65535 retains and 65535 frees: one reference is left and the page is free. -/
theorem saturated_page_freed : ∃ p, (allocPage (init ordinaryMap)).1 = p * pageSize ∧
    isPageUsed (runRefs p (List.replicate 65535 .retain ++ List.replicate 65535 .free) (allocPage (init ordinaryMap)).2) p =
      false := by
  obtain ⟨p, hp, haddr, hstate⟩ := first_page
  have hfrees := pageState_frees (s := runRefs p (List.replicate 65535 .retain) (allocPage (init ordinaryMap)).2) hp 65535
  rw [← runRefs_append, pageState_retains hp, hstate, retain_iter_min (by decide), release_iter_true (by decide)] at hfrees
  exact ⟨p, haddr, congrArg Prod.fst hfrees⟩

end Tori.Pmm
