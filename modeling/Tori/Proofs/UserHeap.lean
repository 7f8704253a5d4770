import Tori.Spec.UserHeap
import Tori.Sanity.VmmBlank
import Tori.Proofs.CowRefinement

/-! The user heap. As long as a call fits, `malloc` returns the old break and moves the break past the bytes asked for; the
heap is the range below the break, so the results are disjoint, and all of it is mapped. -/

namespace Tori.UserHeap

open Vmm Pmm Radix

variable {base : ℕ → Bool × ℕ} {w w' : World} {live : Finset ℕ} {p : ℕ}

variable {va page n r : ℕ} {s s' : Proc} {pmm : State}

/-! ### Mapped bytes -/

theorem isSome_walk (h : Inv base w live) (hp : p ∈ live) (hva : va ≤ userLimit) :
    (walk w.mem p va).isSome = (lookup w.mem p va).isSome := by
  rw [h.walk_eq hp (pml4Idx_user hva), Option.isSome_map]

variable {e : Entry} {a ret : ℕ} {c : HeapCall}

theorem mapped_update (h : PointUpdate live w w' p va e) (hp : p ∈ live)
    (hva : va ≤ userLimit) {va' : ℕ} (hva' : va' ≤ userLimit) :
    (lookup w'.mem p va').isSome = (decide (va' / 4096 = va / 4096) || (lookup w.mem p va').isSome) := by
  by_cases hpage : va' / 4096 = va / 4096
  · rw [lookup_same_page hva hva' hpage, h.lookup_self, decide_eq_true hpage]
    rfl
  · rw [h.lookup_other hva p hp va' hva' fun hc => hpage hc.2, decide_eq_false hpage, Bool.false_or]

/-! ### The kernel's loop -/

/-- `k` pages from `page` on are mapped; what was mapped before stays, with its bytes. -/
structure Grown (p page k : ℕ) (w w' : World) : Prop where
  mapped : ∀ va ≤ userLimit, (walk w'.mem p va).isSome =
    (decide (page ≤ va ∧ va < page + k * 4096) || (walk w.mem p va).isSome)
  kept : ∀ va ≤ userLimit, (walk w.mem p va).isSome = true →
    walk w'.mem p va = walk w.mem p va ∧ readByte w'.mem p va = readByte w.mem p va

theorem Grown.none (p page : ℕ) (w : World) : Grown p page 0 w w := by
  refine ⟨fun va _ => ?_, fun _ _ _ => ⟨rfl, rfl⟩⟩
  rw [decide_eq_false (by omega), Bool.false_or]

theorem Grown.next {k : ℕ} {w₁ : World} (h₁ : Grown p page 1 w w₁) (h : Grown p (page + 4096) k w₁ w') :
    Grown p page (k + 1) w w' := by
  refine ⟨fun va hva => ?_, fun va hva hs => ?_⟩
  · rw [h.mapped va hva, h₁.mapped va hva, ← Bool.or_assoc]
    congr 1
    rw [← Bool.decide_or, decide_eq_decide]
    omega
  · obtain ⟨hwalk₁, hbyte₁⟩ := h₁.kept va hva hs
    obtain ⟨hwalk, hbyte⟩ := h.kept va hva (by rw [hwalk₁]; exact hs)
    exact ⟨hwalk.trans hwalk₁, hbyte.trans hbyte₁⟩

theorem grown_page (h : Inv base w live) (h' : Inv base w' live) (hp : p ∈ live)
    (hpage : page % 4096 = 0) (hva : page ≤ userLimit) (hun : lookup w.mem p page = none)
    (hupdate : PointUpdate live w w' p page e) : Grown p page 1 w w' := by
  refine ⟨fun va hva' => ?_, fun va hva' hs => ?_⟩
  · rw [isSome_walk h' hp hva', isSome_walk h hp hva', mapped_update hupdate hp hva hva']
    congr 1
    rw [decide_eq_decide]
    omega
  · rw [isSome_walk h hp hva'] at hs
    obtain ⟨e₀, hl⟩ := Option.isSome_iff_exists.1 hs
    have hother : ¬ va / 4096 = page / 4096 := by
      intro hsame
      rw [lookup_same_page hva hva' hsame, hun] at hl
      cases hl
    have hl' := hupdate.lookup_other hva p hp va hva' fun hc => hother hc.2
    rw [h'.walk_eq hp (pml4Idx_user hva'), h.walk_eq hp (pml4Idx_user hva'), h'.readByte_eq hp hva',
      h.readByte_eq hp hva', hl', hl]
    obtain ⟨-, -, hdata, hused⟩ := h.mapped hp hl
    have hmod := addrOf_mod e₀
    exact ⟨rfl, congrArg some (hupdate.data _ hused hdata _ (by omega))⟩

/-- The loop maps all the pages, or those before the first that could not be allocated. -/
theorem growHeap_spec (hb : IsBase base) (hp : p ∈ live) {ok : Bool} (n : ℕ) (h : Inv base w live)
    (hpage : page % 4096 = 0) (hend : page + n * 4096 ≤ userLimit + 1)
    (hun : ∀ va, page ≤ va → va < page + n * 4096 → walk w.mem p va = none)
    (hcall : growHeap p n page w = some (ok, w')) :
    Inv base w' live ∧ ∃ k ≤ n, (ok = true → k = n) ∧ Grown p page k w w' := by
  induction n generalizing page w with
  | zero =>
    cases hcall
    exact ⟨h, 0, le_rfl, fun _ => rfl, .none p page _⟩
  | succ n ih =>
    have hva : page ≤ userLimit := by omega
    cases halloc : allocPage w.pmm with
    | mk phys pmm =>
      simp only [growHeap, halloc] at hcall
      split_ifs at hcall with hok
      · cases hcall
        subst hok
        obtain rfl := allocPages_fail halloc
        exact ⟨h, 0, Nat.zero_le _, nofun, .none p page w⟩
      · obtain ⟨w₁, hmap, hrest⟩ := Option.bind_eq_some_iff.1 hcall
        obtain ⟨F, rfl, ha, -⟩ := filled halloc hok fun _ => 0
        have hnone := h.walk_none hp (pml4Idx_user hva) (hun page le_rfl (by omega))
        obtain ⟨h₁, hupdate, -, -⟩ := h.mapFresh hb hp hva hnone ha (show heapFlags.present = true from rfl) hmap
        have hone := grown_page h h₁ hp hpage hva hnone hupdate
        have hun₁ : ∀ va, page + 4096 ≤ va → va < page + 4096 + n * 4096 → walk w₁.mem p va = none := by
          intro va h1 h2
          have hsame := hone.mapped va (by omega)
          rw [decide_eq_false (by omega), hun va (by omega) (by omega)] at hsame
          exact Option.isNone_iff_eq_none.1 (Option.isSome_eq_false_iff.1 hsame)
        obtain ⟨h', k, hk, hall, hlater⟩ := ih h₁ (by omega) (by omega) hun₁ hrest
        exact ⟨h', k + 1, by omega, fun ht => congrArg (· + 1) (hall ht), hone.next hlater⟩

/-! ### The stores of `calloc` -/

theorem userWrite_mapped (hb : IsBase base) (hp : p ∈ live) (h : Inv base w live) (hva : va ≤ userLimit)
    {b : BitVec 8} (hcall : userWrite p va b w = some w') :
    Inv base w' live ∧ ∀ va' ≤ userLimit, (lookup w.mem p va').isSome = true → (lookup w'.mem p va').isSome = true := by
  obtain ⟨w₁, hw₁, htry⟩ := userWrite_cases hcall
  have h₁ : Inv base w₁ live ∧
      ∀ va' ≤ userLimit, (lookup w.mem p va').isSome = true → (lookup w₁.mem p va').isSome = true := by
    rcases hw₁ with rfl | hfault
    · exact ⟨h, fun _ _ hs => hs⟩
    · rcases h.fault hb hp (pml4Idx_user hva) hfault with ⟨hc, -⟩ | ⟨-, hinv, e, e', hr⟩
      · cases hc
      · refine ⟨hinv, fun va' hva' hs => ?_⟩
        rw [mapped_update hr.update hp hva hva', hs, Bool.or_true]
  obtain ⟨e, hl, -, -, rfl⟩ := h₁.1.tryWrite hp (pml4Idx_user hva) htry
  have hmod := addrOf_mod e
  have hdata : tables w₁.mem live ((addrOf e + va % 4096) / 4096) = 0 := by
    rw [show (addrOf e + va % 4096) / 4096 = addrOf e / 4096 by omega]
    exact (h₁.1.mapped hp hl).2.2.1
  obtain ⟨h₂, htree⟩ := h₁.1.store hdata
  refine ⟨h₂, fun va' hva' hs => ?_⟩
  rw [lookup, htree p hp]
  exact h₁.2 va' hva' hs

theorem zeroBytes_mapped (hb : IsBase base) (hp : p ∈ live) (n i : ℕ) (h : Inv base w live)
    (hend : a + i + n ≤ userLimit + 1) (hcall : zeroBytes p a n i w = some w') :
    Inv base w' live ∧ ∀ va ≤ userLimit, (lookup w.mem p va).isSome = true → (lookup w'.mem p va).isSome = true := by
  induction n generalizing i w with
  | zero =>
    cases hcall
    exact ⟨h, fun _ _ hs => hs⟩
  | succ n ih =>
    obtain ⟨w₁, hwrite, hrest⟩ := Option.bind_eq_some_iff.1 hcall
    have hlt : userLimit + 1 < 2 ^ 64 := by decide
    rw [Nat.mod_eq_of_lt (by omega)] at hwrite
    obtain ⟨h₁, hkeep₁⟩ := userWrite_mapped hb hp h (by omega) hwrite
    obtain ⟨h₂, hkeep₂⟩ := ih (i + 1) h₁ (by omega) hrest
    exact ⟨h₂, fun va hva hs => hkeep₂ va hva (hkeep₁ va hva hs)⟩

/-! ### Calls that fit -/

theorem pageEnd_eq (h : a ≤ userLimit + 1) : pageEnd a = (a + 4095) / 4096 * 4096 := by
  have hlt : userLimit + 1 + 4095 < 2 ^ 64 := by decide
  rw [pageEnd, Nat.mod_eq_of_lt (by omega)]

/-- An address space of a well-formed world. -/
def Space (w : World) (p : ℕ) : Prop := ∃ base live, IsBase base ∧ Inv base w live ∧ p ∈ live

/-- The heap of a process: everything from the base to the end of the break's page is mapped. -/
structure ProcOk (s : Proc) : Prop where
  space : Space s.world s.pml4Phys
  base : s.brkBase ≤ s.brk
  aligned : s.brk % 16 = 0
  user : s.brk ≤ userLimit + 1
  mapped : ∀ va, s.brkBase ≤ va → va < pageEnd s.brk → (walk s.world.mem s.pml4Phys va).isSome = true

/-- The kernel extends the heap. -/
theorem sysBrk_fits (h : ProcOk s) (hn : n ≠ 0) (hfit : Fits s n)
    (hcall : sysBrk (newBreak s n) s = some (ret, s')) :
    ret = newBreak s n ∧ s'.brk = newBreak s n ∧ s'.brkBase = s.brkBase ∧ s'.pml4Phys = s.pml4Phys ∧ ProcOk s' := by
  obtain ⟨base, live, hb, hinv, hp⟩ := h.space
  have hlimit : userLimit = 0x7FFFFFFFFFFF := rfl
  have huser := hfit.user
  have hlt : s.brk + 16 ≤ newBreak s n := by
    unfold newBreak
    omega
  have haligned : newBreak s n % 16 = 0 := by
    have := h.aligned
    unfold newBreak
    omega
  have hbase := h.base
  have hold := pageEnd_eq h.user
  have hnew := pageEnd_eq huser
  unfold sysBrk at hcall
  rw [if_neg (by omega), if_neg (by omega)] at hcall
  dsimp only at hcall
  split_ifs at hcall with hgrow
  · split at hcall
    · cases hcall
    · cases hcall
      exact absurd rfl (hfit.memory _ _ (by
        unfold sysBrk
        rw [if_neg (by omega), if_neg (by omega)]
        dsimp only
        rw [if_pos hgrow]
        rename_i hfail
        rw [hfail]))
    · rename_i w hgrown
      cases hcall
      have hcount : pageEnd s.brk + (pageEnd (newBreak s n) - pageEnd s.brk) / 4096 * 4096 = pageEnd (newBreak s n) := by
        omega
      obtain ⟨hinv', _, -, hall, hmapped⟩ := growHeap_spec hb hp _ hinv (by omega) (by omega)
        (fun va h1 h2 => hfit.unmapped va h1 (by omega)) hgrown
      rw [hall rfl] at hmapped
      refine ⟨rfl, rfl, rfl, rfl, ⟨base, live, hb, hinv', hp⟩, by dsimp only; omega, haligned, huser, fun va h1 h2 => ?_⟩
      dsimp only at h1 h2 ⊢
      have hva : va ≤ userLimit := by omega
      rw [hmapped.mapped va hva, Bool.or_eq_true, decide_eq_true_eq, hcount]
      by_cases hin : pageEnd s.brk ≤ va
      · exact .inl ⟨hin, h2⟩
      · exact .inr (h.mapped va h1 (by omega))
  · cases hcall
    refine ⟨rfl, rfl, rfl, rfl, h.space, by dsimp only; omega, haligned, huser, fun va h1 h2 => ?_⟩
    exact h.mapped va h1 (by dsimp only at h2; omega)

theorem brk_zero (h : ProcOk s) : brk 0 s = some (s.brk, s) := by
  have huser := h.user
  have hlimit : userLimit + 1 < failed := by decide
  unfold brk sysBrk
  rw [if_pos rfl, Option.map_some]
  dsimp only
  rw [if_neg (by omega)]

theorem malloc_fits (h : ProcOk s) (hn : n ≠ 0) (hfit : Fits s n)
    (hcall : malloc n s = some (r, s')) :
    r = s.brk ∧ s'.brk = newBreak s n ∧ s'.brkBase = s.brkBase ∧ s'.pml4Phys = s.pml4Phys ∧ ProcOk s' := by
  have huser := hfit.user
  have hlimit : userLimit + 1 = 2 ^ 47 := rfl
  have hfailed : failed = 2 ^ 64 - 1 := rfl
  have hbrk := h.user
  have hsize : align16 n = (n + 15) / 16 * 16 := by
    unfold newBreak at huser
    rw [align16, Nat.mod_eq_of_lt (by omega)]
  have hwanted : (s.brk + align16 n) % 2 ^ 64 = newBreak s n := by
    rw [hsize]
    exact Nat.mod_eq_of_lt (by unfold newBreak at huser; omega)
  simp only [malloc, if_neg hn, brk_zero h, Option.bind_some, hwanted] at hcall
  rw [if_neg (by omega)] at hcall
  obtain ⟨⟨newBrk, s₁⟩, hnew, hres⟩ := Option.map_eq_some_iff.1 hcall
  obtain ⟨⟨ret, s₂⟩, hsys, hret⟩ := Option.map_eq_some_iff.1 hnew
  obtain ⟨rfl, hmoved⟩ := sysBrk_fits h hn hfit hsys
  dsimp only at hret
  rw [if_neg (by omega)] at hret
  cases hret
  dsimp only at hres
  rw [if_neg (by omega), if_neg (lt_irrefl _)] at hres
  cases hres
  exact ⟨rfl, hmoved⟩

/-- A call that fits moves the break past the bytes asked for; its result is the old break. -/
theorem exec_fits (h : ProcOk s) (hn : c.requested ≠ 0)
    (hfit : Fits s c.requested) (hcall : c.exec s = some (r, s')) :
    r = s.brk ∧ s'.brk = newBreak s c.requested ∧ s'.brkBase = s.brkBase ∧ ProcOk s' := by
  cases c with
  | malloc size =>
    obtain ⟨hr, hbrk, hbase, -, hok⟩ := malloc_fits h hn hfit hcall
    exact ⟨hr, hbrk, hbase, hok⟩
  | calloc nmemb size =>
    have huser := hfit.user
    have hlimit : userLimit + 1 = 2 ^ 47 := rfl
    have htotal : nmemb * size % 2 ^ 64 = nmemb * size := by
      refine Nat.mod_eq_of_lt ?_
      simp only [newBreak, HeapCall.requested] at huser
      omega
    simp only [HeapCall.exec, calloc, htotal] at hcall
    obtain ⟨⟨q, s₁⟩, hmalloc, hrest⟩ := Option.bind_eq_some_iff.1 hcall
    obtain ⟨rfl, hbrk, hbase, hpml4, hok⟩ := malloc_fits h hn hfit hmalloc
    dsimp only at hrest
    split_ifs at hrest with hnull
    · cases hrest
      exact ⟨rfl, hbrk, hbase, hok⟩
    · obtain ⟨w, hzero, hres⟩ := Option.map_eq_some_iff.1 hrest
      cases hres
      obtain ⟨base, live, hb, hinv, hp⟩ := hok.space
      obtain ⟨hinv', hkeep⟩ := zeroBytes_mapped hb hp _ 0 hinv
        (by simp only [newBreak, HeapCall.requested] at huser; omega) hzero
      refine ⟨rfl, hbrk, hbase, ⟨base, live, hb, hinv', hp⟩, hok.base, hok.aligned, hok.user, fun va h1 h2 => ?_⟩
      have hva : va ≤ userLimit := by
        dsimp only at h2
        have := hok.user
        rw [pageEnd_eq this] at h2
        omega
      rw [isSome_walk hinv' hp hva]
      refine hkeep va hva ?_
      rw [← isSome_walk hinv hp hva]
      exact hok.mapped va h1 h2

theorem exec_zero (hn : c.requested = 0) (hcall : c.exec s = some (r, s')) :
    r = 0 ∧ s' = s := by
  cases c with
  | malloc size =>
    obtain rfl : size = 0 := hn
    cases hcall
    exact ⟨rfl, rfl⟩
  | calloc nmemb size =>
    have hmul : nmemb * size = 0 := hn
    simp only [HeapCall.exec, calloc, hmul, malloc] at hcall
    cases hcall
    exact ⟨rfl, rfl⟩

/-! ### Runs -/

/-- A call of the process, or anything else in the system that leaves the mapped bytes of the process mapped. -/
inductive HeapStep : Heap → Option HeapCall → Heap → Prop
  | call {s : Heap} {c : HeapCall} {r : ℕ} {proc : Proc} (hvalid : c.Valid) (h : c.exec s.proc = some (r, proc)) :
      HeapStep s (some c) ⟨proc, record r c.requested s.results⟩
  | other {s : Heap} {w : World} (hspace : Space w s.proc.pml4Phys)
      (hkeep : ∀ va ≤ userLimit, (walk s.proc.world.mem s.proc.pml4Phys va).isSome = true →
        (walk w.mem s.proc.pml4Phys va).isSome = true) :
      HeapStep s none ⟨{ s.proc with world := w }, s.results⟩

/-- A run in which `allowed` holds of every call. -/
inductive HeapRun (allowed : Proc → ℕ → Prop) (s₀ : Heap) : Heap → Prop
  | start : HeapRun allowed s₀ s₀
  | step {s s' : Heap} {c : Option HeapCall} (hrun : HeapRun allowed s₀ s)
      (hok : ∀ c' ∈ c, c'.requested ≠ 0 → allowed s.proc c'.requested) (hstep : HeapStep s c s') : HeapRun allowed s₀ s'

structure HeapOk (s : Heap) : Prop where
  proc : ProcOk s.proc
  below : ∀ r ∈ s.results, s.proc.brkBase ≤ r.1 ∧ r.1 % 16 = 0 ∧ r.1 + r.2 ≤ s.proc.brk
  disjoint : s.results.Pairwise fun a b => a.1 + a.2 ≤ b.1 ∨ b.1 + b.2 ≤ a.1

theorem HeapOk.safe {s : Heap} (h : HeapOk s) : HeapSafe s := by
  have hlimit : userLimit + 1 = 2 ^ 47 := rfl
  have huser := h.proc.user
  refine ⟨fun r hr => (h.below r hr).2.1, fun r hr => ?_, fun r hr x h1 h2 => ?_, h.disjoint⟩
  · have := (h.below r hr).2.2
    omega
  · obtain ⟨hbase, -, hend⟩ := h.below r hr
    refine h.proc.mapped x (by omega) ?_
    rw [pageEnd_eq huser]
    omega

theorem HeapOk.step {s s' : Heap} {c : Option HeapCall} (h : HeapOk s)
    (hok : ∀ c' ∈ c, c'.requested ≠ 0 → Fits s.proc c'.requested) (hstep : HeapStep s c s') : HeapOk s' := by
  cases hstep with
  | @call c r proc hvalid hcall =>
    by_cases hn : c.requested = 0
    · obtain ⟨rfl, rfl⟩ := exec_zero hn hcall
      exact h
    · obtain ⟨rfl, hbrk, hbase, hproc⟩ := exec_fits h.proc hn (hok c rfl hn) hcall
      have hmoved : s.proc.brk + c.requested ≤ proc.brk := by
        rw [hbrk, newBreak]
        omega
      have hold : ∀ a ∈ s.results, proc.brkBase ≤ a.1 ∧ a.1 % 16 = 0 ∧ a.1 + a.2 ≤ proc.brk := by
        intro a ha
        obtain ⟨h1, h2, h3⟩ := h.below a ha
        exact ⟨by omega, h2, by omega⟩
      unfold record
      split_ifs
      · exact ⟨hproc, hold, h.disjoint⟩
      · refine ⟨hproc, fun a ha => ?_, List.pairwise_cons.2 ⟨fun a ha => .inr (h.below a ha).2.2, h.disjoint⟩⟩
        rcases List.mem_cons.1 ha with rfl | ha
        · exact ⟨by rw [hbase]; exact h.proc.base, h.proc.aligned, hmoved⟩
        · exact hold a ha
  | other hspace hkeep =>
    have hlimit : userLimit + 1 = 2 ^ 47 := rfl
    refine ⟨⟨hspace, h.proc.base, h.proc.aligned, h.proc.user, fun va h1 h2 => ?_⟩, h.below, h.disjoint⟩
    refine hkeep va ?_ (h.proc.mapped va h1 h2)
    have huser := h.proc.user
    dsimp only at h2
    rw [pageEnd_eq huser] at h2
    omega

/-! ### Small heaps -/

theorem walk_blank (q va : ℕ) : walk (fun _ => 0) q va = none := by
  have hentry : ∀ t i, entry (fun _ => 0) t i = 0 := fun _ _ => rfl
  simp only [walk, hentry, absent_zero, Bool.not_false, if_true]

theorem fillPage_blank (q : ℕ) : fillPage q (fun _ => 0) (fun _ => 0) = fun _ => 0 := by
  funext x
  exact ite_self _

/-- A process with an empty address space in page 1 and its break at 4 MiB. -/
def emptyProc (pmm : State) : Proc := ⟨⟨pmm, fun _ => 0, 0x100 * 4096⟩, 1 * 4096, 0x400000, 0x400000⟩

theorem emptyProc_space {bootInfo : BootInfo} (h : allocPage (Pmm.init bootInfo) = (1 * 4096, pmm)) :
    Space (emptyProc pmm).world (emptyProc pmm).pml4Phys := by
  have hstart : Start ⟨⟨Pmm.init bootInfo, fun _ => 0, 0x100 * 4096⟩, ∅, fun _ _ => none⟩ := ⟨rfl, bootInfo, _, .init, rfl⟩
  obtain ⟨F, hF, hinv, -⟩ := (inv_of_start hstart).create (createUserPml4_blank (by decide) (by decide) h) (by decide)
  exact ⟨_, _, isBase_of_start hstart, hinv, Finset.mem_insert_self _ _⟩

theorem emptyProc_small_space : Space (emptyProc (pagesTaken 1)).world (emptyProc (pagesTaken 1)).pml4Phys := by
  have hinit := pagesTaken_next (n := 0) (by decide)
  rw [show pagesTaken 0 = Pmm.init smallBoot by simp only [pagesTaken, smallStart]] at hinit
  exact emptyProc_space hinit

theorem heapStart_ends : pageEnd 0x400000 = 0x400000 ∧ pageEnd 0x400010 = 0x401000 := by decide

/-- The memory of a process after its first page. -/
def firstPage : Mem :=
  onePage 1 3 4 5 0x400000 ((BitVec.ofNat 64 (2 * 4096) &&& pteAddrMask) ||| heapFlags.toEntry)

theorem emptyProc_page {st₁ st₂ st₃ st₄ : State} (n : ℕ) (h₁ : allocPage pmm = (2 * 4096, st₁))
    (h₂ : allocPage st₁ = (3 * 4096, st₂)) (h₃ : allocPage st₂ = (4 * 4096, st₃)) (h₄ : allocPage st₃ = (5 * 4096, st₄)) :
    growHeap (1 * 4096) (n + 1) 0x400000 (emptyProc pmm).world =
      growHeap (1 * 4096) n 0x401000 ⟨st₄, firstPage, 0x100 * 4096⟩ := by
  have hmap : mapPage 0x400000 (2 * 4096) heapFlags (1 * 4096) ⟨st₁, fun _ => 0, 0x100 * 4096⟩ =
      some ⟨st₄, firstPage, 0x100 * 4096⟩ :=
    mapPage_blank rfl (by decide) (by decide) (by decide) h₂ h₃ h₄
  simp only [growHeap, emptyProc, h₁, fillPage_blank]
  rw [if_neg (by norm_num [invalidPhysicalAddress]), hmap, Option.bind_some]

theorem emptyProc_sysBrk (pmm : State) : sysBrk 0x400010 (emptyProc pmm) =
    match growHeap (1 * 4096) 1 0x400000 (emptyProc pmm).world with
    | none => none
    | some (false, w) => some (noMem, { emptyProc pmm with world := w })
    | some (true, w) => some (0x400010, { emptyProc pmm with world := w, brk := 0x400010 }) := by
  have hbase : ¬ 0x400010 < 0x400000 := by decide
  simp only [sysBrk, emptyProc, if_neg hbase, heapStart_ends.1, heapStart_ends.2]
  rfl

theorem emptyProc_first_brk : sysBrk 0x400010 (emptyProc (pagesTaken 1)) =
    some (0x400010, ⟨⟨pagesTaken 5, firstPage, 0x100 * 4096⟩, 1 * 4096, 0x400010, 0x400000⟩) := by
  have hgrow := emptyProc_page 0 (pagesTaken_next (by decide)) (pagesTaken_next (by decide))
    (pagesTaken_next (by decide)) (pagesTaken_next (by decide))
  generalize pagesTaken 1 = pmm at hgrow ⊢
  generalize pagesTaken (4 + 1) = pmm' at hgrow ⊢
  have hsys := emptyProc_sysBrk pmm
  rw [hgrow, growHeap] at hsys
  exact hsys

theorem emptyProc_malloc (h : sysBrk 0x400010 (emptyProc pmm) = some (ret, s))
    (hret : 0x400010 ≤ ret) (hfail : ret ≠ failed) : malloc 16 (emptyProc pmm) = some (0x400000, s) := by
  have hold : brk 0 (emptyProc pmm) = some (0x400000, emptyProc pmm) := rfl
  have hnew : brk 0x400010 (emptyProc pmm) = some (ret, s) := by
    rw [brk, h, Option.map_some]
    dsimp only
    rw [if_neg hfail]
  have hwanted : (0x400000 + align16 16) % 2 ^ 64 = 0x400010 := by decide
  simp only [malloc, hold, Option.bind_some, hwanted, hnew, Option.map_some]
  rw [if_neg (by decide), if_neg (by decide), if_neg hfail, if_neg (by omega)]

theorem malloc_step {results : List (ℕ × ℕ)} (hn : n < 2 ^ 64) (hr : r ≠ 0)
    (h : malloc n s = some (r, s')) : HeapStep ⟨s, results⟩ (some (.malloc n)) ⟨s', (r, n) :: results⟩ := by
  have hstep : HeapStep ⟨s, results⟩ (some (.malloc n)) ⟨s', record r n results⟩ := .call hn h
  rwa [record, if_neg hr] at hstep

theorem emptyProc_first
    (hsys : sysBrk 0x400010 (emptyProc pmm) = some (0x400010, { emptyProc pmm with world := w, brk := 0x400010 })) :
    HeapRun Fits ⟨emptyProc pmm, []⟩ ⟨{ emptyProc pmm with world := w, brk := 0x400010 }, [(0x400000, 16)]⟩ := by
  have hfit : Fits (emptyProc pmm) 16 := by
    refine ⟨show 0x400010 ≤ userLimit + 1 by decide, fun va _ _ => walk_blank _ va, fun ret s' hcall => ?_⟩
    rw [show newBreak (emptyProc pmm) 16 = 0x400010 from rfl, hsys] at hcall
    cases hcall
    decide
  have hcall : HeapStep ⟨emptyProc pmm, []⟩ (some (.malloc 16))
      ⟨{ emptyProc pmm with world := w, brk := 0x400010 }, [(0x400000, 16)]⟩ :=
    malloc_step (by decide) (by decide) (emptyProc_malloc hsys le_rfl (by decide))
  refine .step .start (fun c hc _ => ?_) hcall
  cases hc
  exact hfit

/-- If every call fits, the results of a run are aligned, mapped, and do not overlap. -/
theorem fitting_calls_safe {s₀ s : Heap} (hspace : Space s₀.proc.world s₀.proc.pml4Phys) (hnone : s₀.results = [])
    (hbase : s₀.proc.brk = s₀.proc.brkBase) (haligned : s₀.proc.brk % 16 = 0) (huser : s₀.proc.brk ≤ userLimit + 1)
    (hpage : ∀ va, s₀.proc.brk ≤ va → va < pageEnd s₀.proc.brk →
      (walk s₀.proc.world.mem s₀.proc.pml4Phys va).isSome = true)
    (hrun : HeapRun Fits s₀ s) : HeapSafe s := by
  have hok : HeapOk s := by
    induction hrun with
    | start =>
      refine ⟨⟨hspace, hbase.ge, haligned, huser, by rw [← hbase]; exact hpage⟩, ?_, ?_⟩
      · rw [hnone]
        exact fun r hr => nomatch hr
      · rw [hnone]
        exact .nil
    | step _ hfit hstep ih => exact ih.step hfit hstep
  exact hok.safe

theorem first_malloc_safe : ∃ s, HeapRun Fits ⟨emptyProc (pagesTaken 1), []⟩ s ∧ s.results = [(0x400000, 16)] ∧ HeapSafe s := by
  have hspace := emptyProc_small_space
  have hsys := emptyProc_first_brk
  generalize pagesTaken 1 = pmm at hspace hsys ⊢
  have hrun := emptyProc_first hsys
  refine ⟨_, hrun, rfl, fitting_calls_safe hspace rfl rfl (show 0x400000 % 16 = 0 by decide)
    (show 0x400000 ≤ userLimit + 1 by decide)
    (fun va h1 h2 => ?_) hrun⟩
  have hend : va < 0x400000 := lt_of_lt_of_eq h2 heapStart_ends.1
  exact absurd (show 0x400000 ≤ va from h1) (by omega)

/-- One page of memory. -/
def tinyBoot : BootInfo := { regions := [⟨0, 0x2000, .usable⟩], kernelPhysicalBase := 0, kernelPhysicalSize := 0 }

theorem tinyBoot_full : ∃ st, allocPage (Pmm.init tinyBoot) = (1 * 4096, st) ∧ allocPage st = (invalidPhysicalAddress, st) := by
  have hpage : allocPage (Pmm.init tinyBoot) = (1 * 4096, (allocPage (Pmm.init tinyBoot)).2) :=
    Prod.fst_eq_iff.mp (by decide +kernel)
  have hwf : Wf (allocPage (Pmm.init tinyBoot)).2 := (wf_init tinyBoot).alloc_pages 1
  exact ⟨_, hpage, hwf.alloc_none (by decide +kernel)⟩

/-- With no page left the kernel cannot extend the heap; two calls for 16 bytes both return the old break, which is not
mapped. -/
theorem failed_extension_not_null : ∃ s₀ s : Heap, Space s₀.proc.world s₀.proc.pml4Phys ∧
    sysBrk 0x400010 s₀.proc = some (noMem, s₀.proc) ∧ malloc 16 s₀.proc = some (0x400000, s₀.proc) ∧
    HeapRun (fun _ _ => True) s₀ s ∧ s.results = [(0x400000, 16), (0x400000, 16)] ∧ ¬ HeapSafe s := by
  obtain ⟨st, hpage, hnone⟩ := tinyBoot_full
  have hsys : sysBrk 0x400010 (emptyProc st) = some (noMem, emptyProc st) := by
    rw [emptyProc_sysBrk]
    simp only [growHeap, emptyProc, hnone, if_true]
  have hmalloc := emptyProc_malloc hsys (by decide) (by decide)
  have hstep : ∀ results, HeapStep ⟨emptyProc st, results⟩ (some (.malloc 16)) ⟨emptyProc st, (0x400000, 16) :: results⟩ :=
    fun results => malloc_step (by decide) (by decide) hmalloc
  refine ⟨⟨emptyProc st, []⟩, ⟨emptyProc st, [(0x400000, 16), (0x400000, 16)]⟩, emptyProc_space hpage, hsys, hmalloc,
    .step (.step .start (fun _ _ _ => trivial) (hstep [])) (fun _ _ _ => trivial) (hstep _), rfl, fun hsafe => ?_⟩
  have hmapped := hsafe.mapped (0x400000, 16) List.mem_cons_self 0x400000 le_rfl (by decide)
  rw [show walk (emptyProc st).world.mem _ 0x400000 = none from walk_blank _ _] at hmapped
  cases hmapped

end Tori.UserHeap
