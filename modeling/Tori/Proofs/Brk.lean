import Tori.Proofs.MapExact
import Tori.Proofs.UserHeap
import Tori.Spec.Brk

/-! `sys_brk`. The pages of the heap are those below the highest break so far, and the loop starts at the current break:
after the break has been lowered, or after a call that failed half-way, the next one maps pages that are mapped. -/

namespace Tori.UserHeap

open Vmm Pmm Radix

variable {base : ℕ → Bool × ℕ} {w w' : World} {live : Finset ℕ} {p q : ℕ} {s s' : Proc} {newBrk ret : ℕ}

variable {a high : ℕ}

/-! ### Pages in use -/

theorem allocPage_used {st st' : State} (h : allocPage st = (a, st')) (hq : isPageUsed st q = true) :
    isPageUsed st' q = true := by
  by_cases ha : a = invalidPhysicalAddress
  · subst ha
    obtain rfl := allocPages_fail h
    exact hq
  · obtain ⟨f, -, -, -, hstate⟩ := allocPage_spec h ha
    have hfst := congrArg Prod.fst (hstate q)
    split_ifs at hfst
    · exact hfst
    · exact hfst.trans hq

theorem ensureTable_used {t i : ℕ} (h : ensureTable t i w = some (a, w')) (hq : isPageUsed w.pmm q = true) :
    isPageUsed w'.pmm q = true := by
  unfold ensureTable at h
  split_ifs at h with hp
  · cases halloc : allocPage w.pmm with
    | mk phys pmm =>
      rw [halloc] at h
      dsimp only at h
      split_ifs at h
      cases h
      exact allocPage_used halloc hq
  · cases h
    exact hq

theorem splitIfHuge_used {t i level : ℕ} (h : splitIfHuge t i level w = some w') (hq : isPageUsed w.pmm q = true) :
    isPageUsed w'.pmm q = true := by
  unfold splitIfHuge at h
  dsimp only at h
  split_ifs at h
  · obtain ⟨F, w₁, ha, rfl, -⟩ := splitHuge_table h
    exact ha.kept hq
  · cases h
    exact hq

theorem mapPage_used {va pa pml4 : ℕ} {flags : Flags} (h : mapPage va pa flags pml4 w = some w')
    (hq : isPageUsed w.pmm q = true) : isPageUsed w'.pmm q = true := by
  unfold mapPage at h
  simp only [Option.bind_eq_bind] at h
  split_ifs at h
  · cases h
  obtain ⟨⟨a₃, w₁⟩, h₁, h⟩ := Option.bind_eq_some_iff.1 h
  obtain ⟨w₂, h₂, h⟩ := Option.bind_eq_some_iff.1 h
  obtain ⟨⟨a₂, w₃⟩, h₃, h⟩ := Option.bind_eq_some_iff.1 h
  obtain ⟨w₄, h₄, h⟩ := Option.bind_eq_some_iff.1 h
  obtain ⟨⟨a₁, w₅⟩, h₅, h⟩ := Option.bind_eq_some_iff.1 h
  have hq₃ := ensureTable_used h₃ (splitIfHuge_used h₂ (ensureTable_used h₁ hq))
  have hq₅ := ensureTable_used h₅ (splitIfHuge_used h₄ hq₃)
  cases h
  exact hq₅

theorem growHeap_used {ok : Bool} (n : ℕ) {page : ℕ} {w : World} (h : growHeap p n page w = some (ok, w'))
    (hq : isPageUsed w.pmm q = true) : isPageUsed w'.pmm q = true := by
  induction n generalizing page w with
  | zero => cases h; exact hq
  | succ n ih =>
    cases halloc : allocPage w.pmm with
    | mk phys pmm =>
      simp only [growHeap, halloc] at h
      split_ifs at h
      · cases h
        exact allocPage_used halloc hq
      · obtain ⟨w₁, hmap, hrest⟩ := Option.bind_eq_some_iff.1 h
        exact ih hrest (mapPage_used hmap (allocPage_used halloc hq))

/-! ### One call -/

/-- What a call does: nothing, move the break within its page or down, or extend the heap. -/
theorem sysBrk_cases (hcall : sysBrk newBrk s = some (ret, s')) :
    ((newBrk = 0 ∨ newBrk < s.brkBase) ∧ s' = s) ∨
    (s.brkBase ≤ newBrk ∧ pageEnd newBrk ≤ pageEnd s.brk ∧ s' = { s with brk := newBrk }) ∨
    (newBrk ≠ 0 ∧ s.brkBase ≤ newBrk ∧ pageEnd s.brk < pageEnd newBrk ∧ ∃ ok w,
      growHeap s.pml4Phys ((pageEnd newBrk - pageEnd s.brk) / 0x1000) (pageEnd s.brk) s.world = some (ok, w) ∧
      ret = (if ok then newBrk else noMem) ∧ s' = { s with world := w, brk := if ok then newBrk else s.brk }) := by
  unfold sysBrk at hcall
  dsimp only at hcall
  split_ifs at hcall with hzero hbase hgrow
  · cases hcall
    exact .inl ⟨.inl hzero, rfl⟩
  · cases hcall
    exact .inl ⟨.inr hbase, rfl⟩
  · refine .inr (.inr ⟨hzero, Nat.not_lt.mp hbase, hgrow, ?_⟩)
    split at hcall
    · cases hcall
    · rename_i w hfail
      cases hcall
      exact ⟨false, w, hfail, rfl, rfl⟩
    · rename_i w hdone
      cases hcall
      exact ⟨true, w, hdone, rfl, rfl⟩
  · cases hcall
    exact .inr (.inl ⟨Nat.not_lt.mp hbase, Nat.not_lt.mp hgrow, rfl⟩)

theorem sysBrk_of_growHeap {ok : Bool} (hne : newBrk ≠ 0) (hbase : s.brkBase ≤ newBrk)
    (hgrow : pageEnd s.brk < pageEnd newBrk)
    (hloop : growHeap s.pml4Phys ((pageEnd newBrk - pageEnd s.brk) / 0x1000) (pageEnd s.brk) s.world = some (ok, w)) :
    sysBrk newBrk s =
      some (if ok then newBrk else noMem, { s with world := w, brk := if ok then newBrk else s.brk }) := by
  rw [sysBrk, if_neg hne, if_neg (Nat.not_lt.mpr hbase)]
  rw [if_pos hgrow, hloop]
  cases ok <;> rfl

theorem pageEnd_mod (a : ℕ) : pageEnd a % 4096 = 0 := Nat.mul_mod_left _ _

/-- Up to the last page of the address space, rounding up does not wrap. -/
theorem pageEnd_cases (h : a < 2 ^ 64) :
    pageEnd a = 0 ∧ 2 ^ 64 - 4096 < a ∨ a ≤ pageEnd a ∧ pageEnd a < a + 4096 := by
  unfold pageEnd
  by_cases hwrap : a + 0xFFF < 2 ^ 64
  · rw [Nat.mod_eq_of_lt hwrap]
    omega
  · left
    rw [show (a + 0xFFF) % 2 ^ 64 = a + 0xFFF - 2 ^ 64 by omega]
    omega

/-- The highest page end the break has had: the heap is mapped up to there, and nothing from there to the stack. -/
structure Mark (high : ℕ) (s : Proc) : Prop where
  space : Space s.world s.pml4Phys
  aligned : high % 4096 = 0
  start : s.brkBase ≤ high
  top : s.brkBase < high → high ≤ userStackBase
  brk : pageEnd s.brk ≤ high
  mapped : ∀ va, s.brkBase ≤ va → va < high → (walk s.world.mem s.pml4Phys va).isSome = true
  free : ∀ va, high ≤ va → va < userStackBase → walk s.world.mem s.pml4Phys va = none

theorem Loaded.mark (h : Loaded s) (hspace : Space s.world s.pml4Phys) : Mark s.brkBase s := by
  have haligned := h.aligned
  have hlt := h.lt
  have hend : pageEnd s.brkBase = s.brkBase := by
    have := pageEnd_mod s.brkBase
    rcases pageEnd_cases hlt with ⟨-, hlast⟩ | hround <;> omega
  exact ⟨hspace, haligned, le_rfl, fun hlt => absurd hlt (lt_irrefl _), by rw [h.brk, hend],
    fun va h1 h2 => absurd h1 (by omega), h.free⟩

section

variable (h : Mark high s) (hlt : newBrk < 2 ^ 64) (hok : Extends newBrk s)
include h hlt hok

/-- A call that extends the heap starts at the mark and ends below the stack. -/
theorem Mark.growth (hne : newBrk ≠ 0) (hbase : s.brkBase ≤ newBrk) (hgrow : pageEnd s.brk < pageEnd newBrk) :
    pageEnd s.brk = high ∧ pageEnd newBrk ≤ userStackBase := by
  obtain ⟨hstart, hstack, hnone⟩ := hok hne hbase hgrow
  refine ⟨?_, ?_⟩
  · refine le_antisymm h.brk (Nat.not_lt.mp fun hbelow => ?_)
    have hmapped := h.mapped _ hstart hbelow
    rw [hnone] at hmapped
    cases hmapped
  · have hmod := pageEnd_mod newBrk
    have hpage : userStackBase % 4096 = 0 := by decide
    rcases pageEnd_cases hlt with ⟨hzero, -⟩ | hround <;> omega

theorem Mark.maps {va : ℕ} (hmaps : Maps newBrk s va) :
    s.brkBase ≤ va ∧ va < userStackBase ∧ walk s.world.mem s.pml4Phys va = none := by
  obtain ⟨hne, hbase, hfrom, hto⟩ := hmaps
  obtain ⟨hhigh, hstack⟩ := h.growth hlt hok hne hbase (lt_of_le_of_lt hfrom hto)
  have hstart := h.start
  exact ⟨by omega, by omega, h.free va (by omega) (by omega)⟩

/-- A call keeps the mark's properties, and what was mapped. -/
theorem Mark.sysBrk (hcall : sysBrk newBrk s = some (ret, s')) :
    (∃ high', Mark high' s') ∧ ∀ va ≤ userLimit, (walk s.world.mem s.pml4Phys va).isSome = true →
      walk s'.world.mem s'.pml4Phys va = walk s.world.mem s.pml4Phys va ∧
        readByte s'.world.mem s'.pml4Phys va = readByte s.world.mem s.pml4Phys va := by
  rcases sysBrk_cases hcall with ⟨-, rfl⟩ | ⟨-, hend, rfl⟩ | ⟨hne, hbase, hgrow, ok, w, hloop, -, rfl⟩
  · exact ⟨⟨high, h⟩, fun _ _ _ => ⟨rfl, rfl⟩⟩
  · exact ⟨⟨high, h.space, h.aligned, h.start, h.top, hend.trans h.brk, h.mapped, h.free⟩, fun _ _ _ => ⟨rfl, rfl⟩⟩
  · obtain ⟨rfl, hstack⟩ := h.growth hlt hok hne hbase hgrow
    obtain ⟨base, live, hb, hinv, hp⟩ := h.space
    have hmod := pageEnd_mod newBrk
    have haligned := h.aligned
    have hlimit : userStackBase ≤ userLimit := by decide
    set n := (pageEnd newBrk - pageEnd s.brk) / 0x1000 with hn
    have htop : pageEnd s.brk + n * 4096 = pageEnd newBrk := by omega
    obtain ⟨hinv', k, hk, hall, hgrown⟩ := growHeap_spec hb hp n hinv haligned (by omega)
      (fun va h1 h2 => h.free va h1 (by omega)) hloop
    have hstart := h.start
    refine ⟨⟨pageEnd s.brk + k * 4096, ⟨base, live, hb, hinv', hp⟩, by omega, by dsimp only; omega, fun _ => by omega, ?_,
      fun va h1 h2 => ?_, fun va h1 h2 => ?_⟩, hgrown.kept⟩
    · cases ok with
      | false => exact Nat.le_add_right _ _
      | true =>
        rw [hall rfl, htop]
        exact le_rfl
    · rw [hgrown.mapped va (by omega), Bool.or_eq_true, decide_eq_true_eq]
      by_cases hin : pageEnd s.brk ≤ va
      · exact .inl ⟨hin, h2⟩
      · exact .inr (h.mapped va h1 (by omega))
    · have hsame := hgrown.mapped va (by omega)
      rw [decide_eq_false (by omega), h.free va (by omega) h2] at hsame
      exact Option.isNone_iff_eq_none.1 (Option.isSome_eq_false_iff.1 hsame)

end

/-! ### Runs -/

/-- A run in which `allowed` holds of every call; between the calls anything happens that leaves the pages of the process
mapped that are mapped, and no others. -/
inductive BrkRun (allowed : ℕ → Proc → Prop) (s₀ : Proc) : Proc → Prop
  | start : BrkRun allowed s₀ s₀
  | call {s s' : Proc} {newBrk ret : ℕ} (hrun : BrkRun allowed s₀ s) (hlt : newBrk < 2 ^ 64) (hok : allowed newBrk s)
      (h : sysBrk newBrk s = some (ret, s')) : BrkRun allowed s₀ s'
  | other {s : Proc} {w : World} (hrun : BrkRun allowed s₀ s) (hspace : Space w s.pml4Phys)
      (hkeep : ∀ va ≤ userLimit, (walk w.mem s.pml4Phys va).isSome = (walk s.world.mem s.pml4Phys va).isSome) :
      BrkRun allowed s₀ { s with world := w }

theorem BrkRun.mark {s₀ : Proc} (hspace : Space s₀.world s₀.pml4Phys) (hload : Loaded s₀) (hrun : BrkRun Extends s₀ s) :
    ∃ high, Mark high s := by
  induction hrun with
  | start => exact ⟨_, hload.mark hspace⟩
  | call _ hlt hok hcall ih =>
    obtain ⟨high, h⟩ := ih
    exact (h.sysBrk hlt hok hcall).1
  | other _ hspace hkeep ih =>
    obtain ⟨high, h⟩ := ih
    have hlimit : userStackBase ≤ userLimit := by decide
    refine ⟨high, hspace, h.aligned, h.start, h.top, h.brk, fun va h1 h2 => ?_, fun va h1 h2 => ?_⟩
    · have htop := h.top (lt_of_le_of_lt h1 h2)
      exact (hkeep va (by omega)).trans (h.mapped va h1 h2)
    · have hsame := hkeep va (by omega)
      rw [h.free va h1 h2] at hsame
      exact Option.isNone_iff_eq_none.1 (Option.isSome_eq_false_iff.1 hsame)

/-- The pages that a call maps lie where they should and were free only if the call extends the heap. -/
theorem extends_of_maps (hlt : newBrk < 2 ^ 64) (hrange : ∀ va, Maps newBrk s va → s.brkBase ≤ va ∧ va < userStackBase)
    (hfresh : ∀ va, Maps newBrk s va → walk s.world.mem s.pml4Phys va = none) : Extends newBrk s := by
  intro hne hbase hgrow
  have hfirst : Maps newBrk s (pageEnd s.brk) := ⟨hne, hbase, le_rfl, hgrow⟩
  refine ⟨(hrange _ hfirst).1, ?_, hfresh _ hfirst⟩
  have hlast := (hrange (pageEnd newBrk - 1) ⟨hne, hbase, by omega, by omega⟩).2
  rcases pageEnd_cases hlt with ⟨hzero, -⟩ | hround <;> omega

/-! ### The first page of a heap -/

theorem emptyProc_loaded (pmm : State) : Loaded (emptyProc pmm) :=
  ⟨rfl, show 0x400000 % 0x1000 = 0 by decide, show 0x400000 < 2 ^ 64 by decide, fun va _ _ => walk_blank _ va⟩

theorem walk_firstPage : (walk firstPage (1 * 4096) 0x400000).isSome = true := by decide +kernel

/-- In a run whose calls all extend the heap or leave it as it is, a call that returns the break it was asked for is in
order exactly if it does so too. -/
theorem brk_ok_iff {s₀ : Proc} (hspace : Space s₀.world s₀.pml4Phys) (hload : Loaded s₀) (hrun : BrkRun Extends s₀ s)
    (hlt : newBrk < 2 ^ 64) (hcall : sysBrk newBrk s = some (newBrk, s')) : BrkOk newBrk s s' ↔ Extends newBrk s := by
  refine ⟨fun hok => extends_of_maps hlt hok.range hok.fresh, fun hext => ?_⟩
  obtain ⟨high, h⟩ := hrun.mark hspace hload
  obtain ⟨⟨high', h'⟩, hkept⟩ := h.sysBrk hlt hext hcall
  refine ⟨fun va h1 h2 => h'.mapped va h1 (lt_of_lt_of_le h2 h'.brk), fun va hmaps => ?_, fun va hmaps => ?_, hkept⟩
  · obtain ⟨hbase, hstack, -⟩ := h.maps hlt hext hmaps
    exact ⟨hbase, hstack⟩
  · exact (h.maps hlt hext hmaps).2.2

theorem first_brk_ok : ∃ s', sysBrk 0x400010 (emptyProc (pagesTaken 1)) = some (0x400010, s') ∧
    BrkOk 0x400010 (emptyProc (pagesTaken 1)) s' := by
  have hext : Extends 0x400010 (emptyProc (pagesTaken 1)) := fun _ _ _ =>
    ⟨heapStart_ends.1.ge, by decide, walk_blank _ _⟩
  exact ⟨_, emptyProc_first_brk, (brk_ok_iff emptyProc_small_space (emptyProc_loaded _) .start (by decide)
    emptyProc_first_brk).2 hext⟩

theorem firstPage_again : ∃ w, growHeap (1 * 4096) 1 0x400000 ⟨pagesTaken 5, firstPage, 0x100 * 4096⟩ = some (true, w) := by
  have halloc : allocPage (pagesTaken 5) = (6 * 4096, pagesTaken 6) := Prod.fst_eq_iff.mp (by decide +kernel)
  have hrow : rd firstPage 1 (ix 0x400000 3) = tableEntry (3 * 4096) ∧ rd firstPage 3 (ix 0x400000 2) = tableEntry (4 * 4096) ∧
      rd firstPage 4 (ix 0x400000 1) = tableEntry (5 * 4096) := by decide +kernel
  have hrd : ∀ g, g ≠ 6 → rd (fillPage (6 * 4096) (fun _ => 0) firstPage) g = rd firstPage g :=
    fun g hg => rd_congr fun x hx => if_neg (by omega)
  rw [← hrd 1 (by decide), ← hrd 3 (by decide), ← hrd 4 (by decide)] at hrow
  generalize pagesTaken 5 = pmm at halloc ⊢
  generalize pagesTaken 6 = pmm' at halloc ⊢
  obtain ⟨w, hmap⟩ := Option.isSome_iff_exists.1 (mapPage_present (p := 1 * 4096)
    (w := ⟨pmm', fillPage (6 * 4096) (fun _ => 0) firstPage, 0x100 * 4096⟩) (6 * 4096) heapFlags (by decide) rfl (by decide)
    hrow.1 hrow.2.1 hrow.2.2)
  refine ⟨w, ?_⟩
  simp only [growHeap, halloc]
  rw [if_neg (by norm_num [invalidPhysicalAddress]), hmap, Option.bind_some]

/-- Grow, shrink and grow again: the last call maps a page that is mapped. -/
theorem regrown_brk_remaps : ∃ s₀ s s', Space s₀.world s₀.pml4Phys ∧ Loaded s₀ ∧ BrkRun (fun _ _ => True) s₀ s ∧
    sysBrk 0x400010 s = some (0x400010, s') ∧ Maps 0x400010 s 0x400000 ∧
    (walk s.world.mem s.pml4Phys 0x400000).isSome = true ∧ ¬ BrkOk 0x400010 s s' := by
  obtain ⟨w, hagain⟩ := firstPage_again
  have hfirst := emptyProc_first_brk
  have hspace := emptyProc_small_space
  generalize pagesTaken 1 = pmm at hfirst hspace
  generalize pagesTaken 5 = pmm' at hfirst hagain
  obtain ⟨hend, hend'⟩ := heapStart_ends
  have hbase : 0x400000 ≤ 0x400010 := by decide
  have hshrink : sysBrk 0x400000 ⟨⟨pmm', firstPage, 0x100 * 4096⟩, 1 * 4096, 0x400010, 0x400000⟩ =
      some (0x400000, ⟨⟨pmm', firstPage, 0x100 * 4096⟩, 1 * 4096, 0x400000, 0x400000⟩) := by
    simp only [sysBrk, hend, hend']
    rfl
  have hregrow := sysBrk_of_growHeap (s := ⟨⟨pmm', firstPage, 0x100 * 4096⟩, 1 * 4096, 0x400000, 0x400000⟩)
    (by decide : 0x400010 ≠ 0) hbase (by dsimp only; rw [hend, hend']; decide)
    (by dsimp only; rw [hend, hend']; exact hagain)
  have hmaps : Maps 0x400010 ⟨⟨pmm', firstPage, 0x100 * 4096⟩, 1 * 4096, 0x400000, 0x400000⟩ 0x400000 :=
    ⟨by decide, hbase, hend.le, by rw [hend']; decide⟩
  refine ⟨_, _, _, hspace, emptyProc_loaded pmm, .call (.call .start (by decide) trivial hfirst) (by decide) trivial hshrink,
    hregrow, hmaps, walk_firstPage, fun hok => ?_⟩
  have hmapped := walk_firstPage
  rw [show walk firstPage (1 * 4096) 0x400000 = none from hok.fresh _ hmaps] at hmapped
  cases hmapped

/-! ### Calls that fail -/

theorem sysBrk_runsOut (h : RunsOut newBrk s) (hcall : sysBrk newBrk s = some (ret, s')) :
    ret = noMem ∧ ∃ n w, growHeap s.pml4Phys (n + 1) (pageEnd s.brk) s.world = some (false, w) ∧
      s' = { s with world := w } := by
  obtain ⟨hne, hbase, hlt, w, hgrow⟩ := h
  rw [sysBrk, if_neg hne, if_neg (Nat.not_lt.mpr hbase)] at hcall
  rw [if_pos hlt, hgrow] at hcall
  cases hcall
  refine ⟨rfl, (pageEnd newBrk - pageEnd s.brk) / 0x1000 - 1, w, ?_, rfl⟩
  rw [Nat.sub_add_cancel, hgrow]
  by_contra hzero
  rw [show (pageEnd newBrk - pageEnd s.brk) / 0x1000 = 0 by omega] at hgrow
  cases hgrow

/-- A call that runs out of memory undoes nothing: it leaves everything as it was exactly if the first page was not to be
had already. -/
theorem failed_brk_undone_iff (h : RunsOut newBrk s) (hcall : sysBrk newBrk s = some (ret, s')) :
    Undone s s' ↔ (allocPage s.world.pmm).1 = invalidPhysicalAddress := by
  obtain ⟨-, n, w, hgrow, rfl⟩ := sysBrk_runsOut h hcall
  cases halloc : allocPage s.world.pmm with
  | mk phys pmm =>
    simp only [growHeap, halloc] at hgrow
    split_ifs at hgrow with hinvalid
    · cases hgrow
      subst hinvalid
      obtain rfl := allocPages_fail halloc
      exact ⟨fun _ => rfl, fun _ => ⟨rfl, fun _ => rfl, fun _ => rfl⟩⟩
    · refine ⟨fun hsame => ?_, fun hfail => absurd hfail hinvalid⟩
      -- the first page was free and stays in use
      obtain ⟨w₁, hmap, hrest⟩ := Option.bind_eq_some_iff.1 hgrow
      obtain ⟨f, -, -, hfree, hstate⟩ := allocPage_spec halloc hinvalid
      have hused : isPageUsed pmm f = true := by
        have hfst := congrArg Prod.fst (hstate f)
        rwa [if_pos rfl] at hfst
      have hlater := growHeap_used n hrest (mapPage_used hmap hused)
      rw [hsame.pages f, hfree] at hlater
      cases hlater

/-- The only page is taken. -/
theorem failed_brk_nothing_taken : ∃ s, RunsOut 0x400010 s ∧ sysBrk 0x400010 s = some (noMem, s) ∧ Undone s s := by
  obtain ⟨st, -, hnone⟩ := tinyBoot_full
  obtain ⟨hend, hend'⟩ := heapStart_ends
  have hgrow : growHeap (1 * 4096) 1 0x400000 (emptyProc st).world = some (false, (emptyProc st).world) := by
    simp only [growHeap, emptyProc, hnone, if_true]
  have hlt : pageEnd (emptyProc st).brk < pageEnd 0x400010 := by
    rw [show (emptyProc st).brk = 0x400000 from rfl, hend, hend']
    decide
  have hruns : RunsOut 0x400010 (emptyProc st) := by
    refine ⟨by decide, show 0x400000 ≤ 0x400010 by decide, hlt, (emptyProc st).world, ?_⟩
    rw [show (emptyProc st).brk = 0x400000 from rfl, hend, hend']
    exact hgrow
  have hcall : sysBrk 0x400010 (emptyProc st) = some (noMem, emptyProc st) := by
    rw [emptyProc_sysBrk, hgrow]
  exact ⟨_, hruns, hcall, (failed_brk_undone_iff hruns hcall).2 (congrArg Prod.fst hnone)⟩

/-- Five pages of memory. -/
def fiveBoot : BootInfo := { regions := [⟨0, 0x6000, .usable⟩], kernelPhysicalBase := 0, kernelPhysicalSize := 0 }

theorem fiveBoot_full : ∃ st₁ st₂ st₃ st₄ st₅, allocPage st₁ = (2 * 4096, st₂) ∧ allocPage st₂ = (3 * 4096, st₃) ∧
    allocPage st₃ = (4 * 4096, st₄) ∧ allocPage st₄ = (5 * 4096, st₅) ∧ allocPage st₅ = (invalidPhysicalAddress, st₅) := by
  have hwf : ∀ {st : State}, Wf st → Wf (allocPage st).2 := fun h => h.alloc_pages 1
  refine ⟨(allocPage (Pmm.init fiveBoot)).2, _, _, _, _, Prod.fst_eq_iff.mp (by decide +kernel),
    Prod.fst_eq_iff.mp (by decide +kernel), Prod.fst_eq_iff.mp (by decide +kernel), Prod.fst_eq_iff.mp (by decide +kernel), ?_⟩
  exact (hwf (hwf (hwf (hwf (hwf (wf_init fiveBoot)))))).alloc_none (by decide +kernel)

/-- With four pages left, two more pages of heap: the first is mapped, with its tables, and stays. -/
theorem failed_brk_keeps_page : ∃ s s', RunsOut 0x402000 s ∧ sysBrk 0x402000 s = some (noMem, s') ∧
    walk s.world.mem s.pml4Phys 0x400000 = none ∧ (walk s'.world.mem s'.pml4Phys 0x400000).isSome = true ∧
    ¬ Undone s s' := by
  obtain ⟨pmm, st₂, st₃, st₄, pmm', h₂, h₃, h₄, h₅, hnone⟩ := fiveBoot_full
  have hpage := emptyProc_page 1 h₂ h₃ h₄ h₅
  have hgrow : growHeap (1 * 4096) 2 0x400000 (emptyProc pmm).world = some (false, ⟨pmm', firstPage, 0x100 * 4096⟩) := by
    rw [hpage]
    simp only [growHeap, hnone, if_true]
  have hends : pageEnd (emptyProc pmm).brk = 0x400000 ∧ pageEnd 0x402000 = 0x402000 := ⟨heapStart_ends.1, by decide⟩
  have hlt : pageEnd (emptyProc pmm).brk < pageEnd 0x402000 := by
    rw [hends.1, hends.2]
    decide
  have hbase : (emptyProc pmm).brkBase ≤ 0x402000 := show 0x400000 ≤ 0x402000 by decide
  have hloop : growHeap (emptyProc pmm).pml4Phys ((pageEnd 0x402000 - pageEnd (emptyProc pmm).brk) / 0x1000)
      (pageEnd (emptyProc pmm).brk) (emptyProc pmm).world = some (false, ⟨pmm', firstPage, 0x100 * 4096⟩) := by
    rw [hends.1, hends.2]
    exact hgrow
  refine ⟨emptyProc pmm, _, ⟨by decide, hbase, hlt, _, hloop⟩, sysBrk_of_growHeap (by decide) hbase hlt hloop,
    walk_blank _ _, walk_firstPage, fun hsame => ?_⟩
  have hmapped := walk_firstPage
  rw [show walk firstPage (1 * 4096) 0x400000 = none from (hsame.mappings 0x400000).trans (walk_blank _ _)] at hmapped
  cases hmapped

end Tori.UserHeap
