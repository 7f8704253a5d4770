import Tori.Sanity.Machine
import Tori.Proofs.CowRefinement
import Tori.Proofs.ProcessTree

/-! `sys_fork` duplicates a process, except for its program break: the child's `brk` and `brk_base` stay
zero, as `process_create` left them. -/

namespace Tori.Kernel

open Vmm Proc Radix

variable {parent child t : Addr} {frame pml4 : ℕ} {s s' : Machine} {w : World}

/-! ### Memory views -/

/-- Whether the user may read a page, and may write it, if need be after a copy. -/
def access (m : Mem) (pml4 va : ℕ) : Option (Bool × Bool) :=
  (lookup m pml4 va).map fun e => (has e pteUser, has e pteWritable || has e pteCow)

/-- What a user program sees of its memory. -/
def SameView (m : Mem) (pml4 : ℕ) (m' : Mem) (pml4' : ℕ) : Prop :=
  ∀ va ≤ userLimit, readByte m' pml4' va = readByte m pml4 va ∧ access m' pml4' va = access m pml4 va

variable {m m' : Mem} {p p' : ℕ}

theorem readByte_eq (hok : Ok okEntry (tree m p)) (hp : p % 4096 = 0) {va : ℕ} (hva : va ≤ userLimit) :
    readByte m p va = (lookup m p va).map fun e => m (addrOf e + va % 2 ^ 12) := by
  have hf : p / 4096 * 4096 = p := by omega
  have hwalk := walk_eq (by rw [hf]; exact hok) (pml4Idx_user hva)
  rw [hf] at hwalk
  rw [readByte, hwalk, Option.map_map]
  rfl

/-- Marked copies of the entries, and the same bytes behind them, give the same view. -/
theorem sameView_of_marked (hok : Ok okEntry (tree m p)) (hp : p % 4096 = 0) (hok' : Ok okEntry (tree m' p'))
    (hp' : p' % 4096 = 0) (hl : ∀ va, lookup m' p' va = (lookup m p va).map markCow)
    (hbytes : ∀ va e, lookup m p va = some e → ∀ x, x / 4096 = addrOf e / 4096 → m' x = m x) : SameView m p m' p' := by
  intro va hva
  rw [readByte_eq hok hp hva, readByte_eq hok' hp' hva, access, access, hl]
  cases he : lookup m p va with
  | none => exact ⟨rfl, rfl⟩
  | some e =>
    obtain ⟨-, hU, hW, hA, hC⟩ := markCow_bits e
    have hmod := addrOf_mod e
    simp only [Option.map_some, hU, hW, hA, hC, Bool.false_or]
    refine ⟨congrArg some (hbytes va e he _ ?_), ?_⟩
    · have : va % 2 ^ 12 < 4096 := Nat.mod_lt _ (by decide)
      omega
    · rw [Bool.or_comm]

/-! ### A fork that succeeds -/

/-- The steps of a `sys_fork` that returns a pid. -/
structure Forked (parent child t : Addr) (frame : ℕ) (mem threadMem : Option Addr) (s : Machine) (pml4 : ℕ) (w : World)
    (procs : State) (s₁ s' : Machine) : Prop where
  clone : cloneAddressSpace (s.procs.proc parent).pml4Phys s.world = (pml4, w)
  pml4_ne : pml4 ≠ 0
  create : processCreate mem pml4 (some parent) s.procs = (some child, procs)
  thread : threadCreate threadMem child (w.mem.load64 frame) s.gs8 { s with
    world := w
    procs := procs.modify child fun c => { c with fdTable := (procs.proc parent).fdTable } } = (some t, s₁)
  final : s' = { s₁ with
    world := { s₁.world with mem := (pushAll [s₁.forkReturn, 0, 0, 0, 0, 0, 0] ((s₁.thread t).stackTop - frameSize,
      storeFrame s₁.world.mem ((s₁.thread t).stackTop - frameSize)
        { loadFrame s₁.world.mem frame with rax := 0, userRsp := s.gs8 })).2 }
    thread := Function.update s₁.thread t { s₁.thread t with
      context := (pushAll [s₁.forkReturn, 0, 0, 0, 0, 0, 0] ((s₁.thread t).stackTop - frameSize,
        storeFrame s₁.world.mem ((s₁.thread t).stackTop - frameSize)
          { loadFrame s₁.world.mem frame with rax := 0, userRsp := s.gs8 })).1 }
    procs := s₁.procs.modify child fun c => { c with threadList := some t } }

theorem sysFork_ok {mem threadMem : Option Addr} {ret : ℤ}
    (h : sysFork parent frame mem threadMem s = (ret, s')) (hret : 0 ≤ ret) :
    ∃ child t pml4 w procs s₁, Forked parent child t frame mem threadMem s pml4 w procs s₁ s' ∧
      ret = (s₁.procs.proc child).pid := by
  have hneg : ¬0 ≤ -eNoMem := by decide
  unfold sysFork at h
  rcases hc : cloneAddressSpace (s.procs.proc parent).pml4Phys s.world with ⟨pml4, w⟩
  rw [hc] at h
  dsimp only at h
  split_ifs at h with h0
  · exact absurd ((Prod.mk.inj h).1 ▸ hret) hneg
  · rcases hp : processCreate mem pml4 (some parent) s.procs with ⟨_ | child, procs⟩
    · rw [hp] at h
      exact absurd ((Prod.mk.inj h).1 ▸ hret) hneg
    · rw [hp] at h
      dsimp only at h
      rcases ht : threadCreate threadMem child (w.mem.load64 frame) s.gs8 { s with
          world := w
          procs := procs.modify child fun c => { c with fdTable := (procs.proc parent).fdTable } } with ⟨_ | t, s₁⟩
      · rw [ht] at h
        exact absurd ((Prod.mk.inj h).1 ▸ hret) hneg
      · rw [ht] at h
        obtain ⟨h1, h2⟩ := Prod.mk.inj h
        exact ⟨child, t, pml4, w, procs, s₁, ⟨hc, h0, hp, ht, h2.symm⟩, h1.symm⟩

/-- The parts of a successful `sys_fork`: the cloned space, the new process and its kernel stack. -/
structure ForkEffect (parent child t : Addr) (frame page pml4 : ℕ) (w : World) (s s' : Machine) : Prop where
  clone : cloneAddressSpace (s.procs.proc parent).pml4Phys s.world = (pml4, w)
  pml4_ne : pml4 ≠ 0
  bound : page + stackPages ≤ Pmm.maxManagedPages
  fresh : ∀ q, page ≤ q → q < page + stackPages → Pmm.isPageUsed w.pmm q = false
  pages : ∀ q, Pmm.pageState s'.world.pmm q =
    if page ≤ q ∧ q < page + stackPages then (true, 1) else Pmm.pageState w.pmm q
  mem : ∀ x, ¬(page ≤ x / 4096 ∧ x / 4096 < page + stackPages) → s'.world.mem x = w.mem x
  created : ∃ pid procs, Created child pid pml4 (some parent) s.procs procs ∧
    s'.procs = (procs.modify child fun c => { c with fdTable := (procs.proc parent).fdTable }).modify child
      fun c => { c with threadList := some t }
  cr3 : (s'.thread t).cr3 = pml4
  resume : s.forkReturn < 2 ^ 64 → s.gs8 < 2 ^ 64 →
    (∀ x, frame ≤ x → x < frame + frameSize → ¬(page ≤ x / 4096 ∧ x / 4096 < page + stackPages)) →
    resumeUser s'.forkReturn s'.world.mem (s'.thread t).context =
      some { loadFrame w.mem frame with rax := 0, userRsp := s.gs8 }

/-- The child's stack as `sys_fork` leaves it is one that resumes with the copied registers. -/
theorem resume_forked {forkReturn top : ℕ} {f : SyscallFrame} (hcode : forkReturn < 2 ^ 64)
    (hf : ∀ v ∈ f.words, v < 2 ^ 64) (htop : 184 ≤ top) :
    resumeUser forkReturn (pushAll [forkReturn, 0, 0, 0, 0, 0, 0] (top - frameSize, storeFrame m (top - frameSize) f)).2
      (pushAll [forkReturn, 0, 0, 0, 0, 0, 0] (top - frameSize, storeFrame m (top - frameSize) f)).1 = some f := by
  have hlen : [forkReturn, 0, 0, 0, 0, 0, 0].length = 7 := rfl
  have hsize : frameSize = 128 := rfl
  have hle : 8 * [forkReturn, 0, 0, 0, 0, 0, 0].length ≤ top - frameSize := by
    rw [hlen, hsize]
    omega
  have hwords : ∀ v ∈ [forkReturn, 0, 0, 0, 0, 0, 0], v < 2 ^ 64 := by
    intro v hv
    rcases List.mem_cons.mp hv with rfl | hv
    · exact hcode
    · rw [List.eq_of_mem_replicate (n := 6) hv]
      decide
  have hret := pushAll_load (m := storeFrame m (top - frameSize) f) hwords hle (i := 0) (by rw [hlen]; omega)
  have hsp : (pushAll [forkReturn, 0, 0, 0, 0, 0, 0] (top - frameSize, storeFrame m (top - frameSize) f)).1 =
      top - frameSize - 56 := by
    rw [pushAll_sp, hlen]
  unfold resumeUser
  rw [hsp, show top - frameSize - 56 + 48 = top - frameSize - 8 * (0 + 1) by rw [hsize]; omega, hret, List.getElem_cons_zero,
    if_pos rfl, show top - frameSize - 56 + 56 = top - frameSize by rw [hsize]; omega]
  rw [loadFrame_congr fun x h1 _ => pushAll_outside hle (.inr h1),
    loadFrame_storeFrame m _ hf]

theorem Forked.effect {mem threadMem : Option Addr} {s₁ : Machine}
    {procs : State} (h : Forked parent child t frame mem threadMem s pml4 w procs s₁ s') :
    mem = some child ∧ threadMem = some t ∧ ∃ page, ForkEffect parent child t frame page pml4 w s s' := by
  obtain ⟨hmem, pid, hc⟩ := processCreate_ok h.create
  obtain ⟨htm, page, hth⟩ := threadCreate_some h.thread
  have hsize : frameSize = 128 := rfl
  have hss : stackSize = 16384 := rfl
  have hsp : stackPages = 4 := rfl
  have hlen : [s₁.forkReturn, 0, 0, 0, 0, 0, 0].length = 7 := rfl
  have hfinal := h.final
  have hmem₁ : ∀ x, ¬(page ≤ x / 4096 ∧ x / 4096 < page + stackPages) → s₁.world.mem x = w.mem x := fun x hx =>
    hth.mem x (by rw [hss]; rw [hsp] at hx; omega)
  refine ⟨hmem, htm, page, h.clone, h.pml4_ne, hth.bound, hth.fresh, fun q => ?_, fun x hx => ?_, ⟨pid, procs, hc, ?_⟩, ?_,
    fun hcode hgs hframe => ?_⟩
  · rw [hfinal]
    exact hth.pages q
  · rw [hfinal]
    dsimp only
    rw [hsp] at hx
    rw [pushAll_outside (by rw [hlen, hth.top, hss, hsize]; omega) (by rw [hlen, hth.top, hss, hsize]; omega),
      storeFrame_outside _ _ (by rw [hth.top, hss, hsize]; omega)]
    exact hmem₁ x hx
  · rw [hfinal]
    rw [hth.procs]
  · rw [hfinal]
    dsimp only
    rw [Function.update_self]
    refine hth.cr3.trans ?_
    rw [proc_modify_self]
    exact congrArg Process.pml4Phys hc.record
  · rw [hfinal]
    dsimp only
    rw [Function.update_self]
    have hload : loadFrame s₁.world.mem frame = loadFrame w.mem frame :=
      loadFrame_congr fun x h1 h2 => hmem₁ x (hframe x h1 h2)
    rw [hload]
    refine resume_forked (hth.code ▸ hcode) (fun v hv => ?_) (by rw [hth.top, hss]; omega)
    have hw := loadFrame_lt w.mem frame
    simp only [SyscallFrame.words, List.mem_cons, List.not_mem_nil, or_false] at hv hw
    rcases hv with rfl | rfl | rfl | rfl | rfl | rfl | rfl | rfl | rfl | rfl | rfl | rfl | rfl | rfl | rfl | rfl
    all_goals first
      | exact hgs
      | decide
      | exact hw _ (by simp)

/-! ### The copy -/

section Copy

variable {parent child t : Addr} {frame page pml4 : ℕ} {w : World} {s s' : Machine} {base : ℕ → Bool × ℕ}
  {live : Finset ℕ}

/-- A frame that is in use after the clone is not on the new stack. -/
theorem ForkEffect.not_stack (h : ForkEffect parent child t frame page pml4 w s s') {q : ℕ}
    (hq : Pmm.isPageUsed w.pmm q = true) : ¬(page ≤ q ∧ q < page + stackPages) := by
  rintro ⟨h1, h2⟩
  rw [h.fresh q h1 h2] at hq
  cases hq

/-- The new stack does not touch the trees of the spaces or the pages behind them. -/
theorem ForkEffect.tree (h : ForkEffect parent child t frame page pml4 w s s') {p : ℕ}
    (huse : InUse w.pmm (Vmm.tree w.mem p)) : Vmm.tree s'.world.mem p = Vmm.tree w.mem p := by
  refine view_congr _ _ fun g hg => rd_congr fun x hx => h.mem x (h.not_stack ?_)
  rw [hx]
  exact (huse g (Nat.lt_of_lt_of_le hg (Nat.le_add_right _ _))).2

theorem cloneEffect_inUse_copy {w₀ : World} {src dst : ℕ} (he : CloneEffect w₀ w live src dst)
    (huse : InUse w₀.pmm (tree w₀.mem src)) : InUse w.pmm (tree w.mem dst) := by
  intro q hq
  rcases Nat.eq_zero_or_pos (own q (tree w.mem dst)) with h0 | hpos
  · rw [h0, he.cloned.copy.cnt] at hq
    simp only [refs_copyLeaf, Nat.zero_add] at hq
    exact he.cloned.inUse huse q (Nat.lt_of_lt_of_le hq (Nat.le_add_left _ _))
  · exact ⟨(he.cloned.fresh q hpos).1, he.cloned.used (.inr hpos)⟩

section

variable (h : ForkEffect parent child t frame page pml4 w s s') (hinv : Inv base s.world live) (hb : IsBase base)
  (hlive : (s.procs.proc parent).pml4Phys ∈ live)
include h hinv hb hlive

theorem ForkEffect.copies : SameView s.world.mem (s.procs.proc parent).pml4Phys s'.world.mem pml4 ∧
      SameView s.world.mem (s.procs.proc parent).pml4Phys s'.world.mem (s.procs.proc parent).pml4Phys := by
  obtain ⟨hroot, he⟩ := hinv.cloneEffect hb hlive h.clone h.pml4_ne
  have hsrc := hinv.ok _ hlive
  have huse := hinv.inUse hb hlive
  have huseSrc : InUse w.pmm (Vmm.tree w.mem (s.procs.proc parent).pml4Phys) := fun q hq => by
    rw [he.source, own_mapLeaf, cnt_mapLeaf] at hq
    simp only [refs_markLeaf] at hq
    exact he.cloned.inUse huse q hq
  have huseDst := cloneEffect_inUse_copy he huse
  have hbytes : ∀ va e, lookup s.world.mem (s.procs.proc parent).pml4Phys va = some e →
      ∀ x, x / 4096 = addrOf e / 4096 → s'.world.mem x = s.world.mem x := by
    intro va e hl x hx
    obtain ⟨-, -, ht, hu⟩ := hinv.mapped hlive hl
    rw [← hx] at ht hu
    rw [h.mem x (h.not_stack (he.cloned.used (.inl hu))), he.bytes hlive ht hu]
  constructor
  · refine sameView_of_marked hsrc (hinv.root _ hlive) ?_ hroot (fun va => ?_) hbytes
    · rw [h.tree huseDst]
      exact he.cloned.ok
    · rw [lookup, h.tree huseDst]
      exact he.lookup_copy va
  · refine sameView_of_marked hsrc (hinv.root _ hlive) ?_ (hinv.root _ hlive) (fun va => ?_) hbytes
    · rw [h.tree huseSrc, he.source]
      exact hsrc.mapLeaf _
    · rw [lookup, h.tree huseSrc]
      exact he.lookup_source va

/-- The child resumes with the registers of the parent, which keeps its own. -/
theorem ForkEffect.frames (hcode : s.forkReturn < 2 ^ 64) (hgs : s.gs8 = (loadFrame s.world.mem frame).userRsp)
    (hframe : ∀ x, frame ≤ x → x < frame + frameSize →
      Pmm.isPageUsed s.world.pmm (x / 4096) = true ∧ tables s.world.mem live (x / 4096) = 0) :
    loadFrame s'.world.mem frame = loadFrame s.world.mem frame ∧
      resumeUser s'.forkReturn s'.world.mem (s'.thread t).context = some { loadFrame s.world.mem frame with rax := 0 } := by
  obtain ⟨-, he⟩ := hinv.cloneEffect hb hlive h.clone h.pml4_ne
  have hstack : ∀ x, frame ≤ x → x < frame + frameSize → ¬(page ≤ x / 4096 ∧ x / 4096 < page + stackPages) :=
    fun x h1 h2 => h.not_stack (he.cloned.used (.inl (hframe x h1 h2).1))
  have hw : loadFrame w.mem frame = loadFrame s.world.mem frame :=
    loadFrame_congr fun x h1 h2 => he.bytes hlive (hframe x h1 h2).2 (hframe x h1 h2).1
  refine ⟨?_, ?_⟩
  · rw [loadFrame_congr fun x h1 h2 => h.mem x (hstack x h1 h2), hw]
  · rw [h.resume hcode (by rw [hgs]; exact Mem.load64_lt _ _) hstack, hw, hgs]

end

end Copy

/-- `child` with the thread `t` is a duplicate of `parent`, whose registers are at `frame`. -/
structure Duplicated (parent child t : Addr) (frame : ℕ) (s s' : Machine) : Prop where
  view : SameView s.world.mem (s.procs.proc parent).pml4Phys s'.world.mem (s'.procs.proc child).pml4Phys
  cr3 : (s'.thread t).cr3 = (s'.procs.proc child).pml4Phys
  fdTable : (s'.procs.proc child).fdTable = (s.procs.proc parent).fdTable
  brk : (s'.procs.proc child).brk = (s.procs.proc parent).brk
  brkBase : (s'.procs.proc child).brkBase = (s.procs.proc parent).brkBase
  resume : resumeUser s'.forkReturn s'.world.mem (s'.thread t).context = some { loadFrame s.world.mem frame with rax := 0 }
  ownView : SameView s.world.mem (s.procs.proc parent).pml4Phys s'.world.mem (s'.procs.proc parent).pml4Phys
  ownFrame : loadFrame s'.world.mem frame = loadFrame s.world.mem frame
  ownFdTable : (s'.procs.proc parent).fdTable = (s.procs.proc parent).fdTable
  ownBrk : (s'.procs.proc parent).brk = (s.procs.proc parent).brk
  ownBrkBase : (s'.procs.proc parent).brkBase = (s.procs.proc parent).brkBase

theorem ForkEffect.records {page : ℕ}
    (h : ForkEffect parent child t frame page pml4 w s s') (hne : child ≠ parent) :
    (s'.procs.proc child).pml4Phys = pml4 ∧ (s'.procs.proc child).fdTable = (s.procs.proc parent).fdTable ∧
      (s'.procs.proc child).brk = 0 ∧ (s'.procs.proc child).brkBase = 0 ∧
      (s'.procs.proc parent).noKin.noList = (s.procs.proc parent).noKin.noList := by
  obtain ⟨pid, procs, hc, hprocs⟩ := h.created
  have hother := hc.other parent (Ne.symm hne)
  have hfd : (procs.proc parent).fdTable = (s.procs.proc parent).fdTable := by
    have := congrArg Process.fdTable hother
    exact this
  rw [hprocs]
  simp only [proc_modify_self, proc_modify_ne (Ne.symm hne)]
  have hpml4 := congrArg Process.pml4Phys hc.record
  have hbrk := congrArg Process.brk hc.record
  have hbase := congrArg Process.brkBase hc.record
  exact ⟨hpml4, hfd, hbrk, hbase, hother⟩

/-- A successful fork duplicates the process exactly when its program break is zero. -/
theorem fork_duplicates {parent : Addr} {frame : ℕ} {mem threadMem : Option Addr} {s s' : Machine} {ret : ℤ}
    {base : ℕ → Bool × ℕ} {live : Finset ℕ} (hb : IsBase base) (hinv : Inv base s.world live)
    (hlive : (s.procs.proc parent).pml4Phys ∈ live) (hproc : s.procs.live parent = true)
    (hfresh : ∀ a, mem = some a → s.procs.live a = false) (hcode : s.forkReturn < 2 ^ 64)
    (hgs : s.gs8 = (loadFrame s.world.mem frame).userRsp)
    (hframe : ∀ x, frame ≤ x → x < frame + frameSize →
      Pmm.isPageUsed s.world.pmm (x / 4096) = true ∧ tables s.world.mem live (x / 4096) = 0)
    (hfork : sysFork parent frame mem threadMem s = (ret, s')) (hret : 0 ≤ ret) :
    ∃ child t, mem = some child ∧ threadMem = some t ∧
      (Duplicated parent child t frame s s' ↔
        (s.procs.proc parent).brk = 0 ∧ (s.procs.proc parent).brkBase = 0) := by
  obtain ⟨child, t, pml4, w, procs, s₁, hf, -⟩ := sysFork_ok hfork hret
  obtain ⟨hmem, htm, page, h⟩ := hf.effect
  have hne : child ≠ parent := by
    rintro rfl
    exact Bool.noConfusion (hproc.symm.trans (hfresh child hmem))
  obtain ⟨hpml4, hfd, hbrk, hbase, hown⟩ := h.records hne
  obtain ⟨hview, hownView⟩ := h.copies hinv hb hlive
  obtain ⟨hownFrame, hresume⟩ := h.frames hinv hb hlive hcode hgs hframe
  have hownPml4 := congrArg Process.pml4Phys hown
  have hownFd := congrArg Process.fdTable hown
  have hownBrk := congrArg Process.brk hown
  have hownBase := congrArg Process.brkBase hown
  refine ⟨child, t, hmem, htm, fun hd => ⟨?_, ?_⟩, fun hz => ?_⟩
  · rw [← hd.brk, hbrk]
  · rw [← hd.brkBase, hbase]
  · exact ⟨hpml4.symm ▸ hview, h.cr3.trans hpml4.symm, hfd, hbrk.trans hz.1.symm, hbase.trans hz.2.symm, hresume,
      hownPml4.symm ▸ hownView, hownFrame, hownFd, hownBrk, hownBase⟩

/-! ### A first fork

A process with an empty address space forks. -/

theorem cloneAddressSpace_empty {f f' : ℕ} {pmm : Pmm.State} (hk : w.kernelPml4Phys ≠ 0) (hne : f ≠ f')
    (halloc : Pmm.allocPage w.pmm = (f' * 4096, pmm)) (hok : f' * 4096 ≠ Pmm.invalidPhysicalAddress)
    (hempty : ∀ j : Fin 512, j.val < 256 → rd w.mem f j = 0) :
    ∃ m, cloneAddressSpace (f * 4096) w = (f' * 4096, { w with pmm := pmm, mem := m }) := by
  unfold cloneAddressSpace
  rw [if_neg hk, halloc]
  dsimp only
  rw [if_neg hok]
  obtain ⟨hout, -⟩ := forUp_setEntry (fun i m => entry m (f * 4096) i) 256 256 w.mem le_rfl
  rw [Loop.forUpE_mapError.mpr (forUpE_empty hne 256 0 le_rfl { w with
    pmm := pmm
    mem := Loop.forUp (fun i m => setEntry m (f' * 4096) i (entry m (f * 4096) i)) 256 256 w.mem } fun j hj => by
      rw [rd_congr fun x hx => hout x (by omega)]
      exact hempty j hj)]
  exact ⟨_, rfl⟩

theorem sysFork_succeeds {procs : State}
    (hc : cloneAddressSpace (s.procs.proc parent).pml4Phys s.world = (pml4, w)) (h0 : pml4 ≠ 0)
    (hp : processCreate (some child) pml4 (some parent) s.procs = (some child, procs))
    (hstack : (Pmm.allocPages stackPages w.pmm).1 ≠ Pmm.invalidPhysicalAddress) :
    ∃ s', sysFork parent frame (some child) (some t) s = (((procs.proc child).pid : ℤ), s') := by
  unfold sysFork threadCreate
  rw [hc]
  dsimp only
  rw [if_neg h0, hp]
  dsimp only
  rw [if_neg hstack]
  refine ⟨_, Prod.ext ?_ rfl⟩
  dsimp only
  rw [proc_modify_self]

/-- The state after the first user PML4 is made. -/
@[irreducible] def smallUser : World := (createUserPml4 smallStart.world).2

theorem smallUser_made : createUserPml4 smallStart.world = (0x1000, smallUser) := by
  unfold smallUser
  exact Prod.fst_eq_iff.mp (by decide +kernel)

/-- One process, with the given program break and an empty address space; its registers are saved in page 0. -/
def oneProcess (brk : ℕ) : Machine where
  world := smallUser
  procs := (boot 1 0x1000 noProcesses).modify 1 fun p => { p with brk := brk }
  thread := fun _ => ⟨1, 0, 0, 0, 0, 0, 0, 0, 0x1000⟩
  gs8 := (loadFrame smallUser.mem 0x100).userRsp
  cr3 := 0x1000
  threadTrampoline := 0x200000
  forkReturn := 0x300000

theorem smallUser_inv : Inv (Pmm.pageState smallStart.world.pmm) smallUser {0x1000} := by
  obtain ⟨-, -, hinv, -⟩ := (inv_of_start start_small).create smallUser_made (by decide)
  exact hinv

theorem oneProcess_pml4Phys (brk : ℕ) : ((oneProcess brk).procs.proc 1).pml4Phys = 0x1000 := by
  have hrecord := congrArg Process.pml4Phys (boot_created 1 0x1000 noProcesses).record
  exact hrecord

theorem oneProcess_forks {brk : ℕ}
    (hcreate : (processCreate (some 2) 0x2000 (some 1) (oneProcess brk).procs).1 = some 2)
    (hpid : ((processCreate (some 2) 0x2000 (some 1) (oneProcess brk).procs).2.proc 2).pid = 1) :
    ∃ s', sysFork 1 0x100 (some 2) (some 3) (oneProcess brk) = (1, s') := by
  have hnext : Pmm.allocPage smallUser.pmm = (2 * 4096, (Pmm.allocPage smallUser.pmm).2) :=
    Prod.fst_eq_iff.mp (by decide +kernel)
  have hstack : (Pmm.allocPages stackPages (Pmm.allocPage smallUser.pmm).2).1 ≠ Pmm.invalidPhysicalAddress := by
    decide +kernel
  obtain ⟨f', hf', -, hempty, -⟩ := createUserPml4_spec smallUser_made (by decide)
  obtain rfl : f' = 1 := by omega
  obtain ⟨m, hclone⟩ := cloneAddressSpace_empty (by decide +kernel) (by decide)
    hnext (by norm_num [Pmm.invalidPhysicalAddress]) hempty
  obtain ⟨s', hs'⟩ := @sysFork_succeeds 1 2 3 0x100 0x2000 (oneProcess brk) _ _
    ((congrArg (cloneAddressSpace · smallUser) (oneProcess_pml4Phys brk)).trans hclone) (by decide)
    (Prod.fst_eq_iff.mp hcreate) hstack
  rw [hpid] at hs'
  exact ⟨s', hs'⟩

/-- Page 0 is reserved, so no table is in it. -/
theorem oneProcess_frame (brk x : ℕ) (hx : x < 0x100 + frameSize) :
    Pmm.isPageUsed (oneProcess brk).world.pmm (x / 4096) = true ∧
      tables (oneProcess brk).world.mem {0x1000} (x / 4096) = 0 := by
  have hzero : x / 4096 = 0 := Nat.div_eq_of_lt (lt_of_lt_of_le hx (by decide))
  rw [hzero]
  refine ⟨(smallUser_inv.used_iff 0).mpr (.inr (isBase_of_start start_small).zero), ?_⟩
  by_contra htable
  have hfree := smallUser_inv.taken 0 (Nat.add_pos_left (Nat.pos_of_ne_zero htable) _)
  exact Bool.noConfusion (hfree.symm.trans (isBase_of_start start_small).zero)

/-- A process that never moved its program break forks into a duplicate. -/
theorem fork_duplicates_empty :
    ∃ s', sysFork 1 0x100 (some 2) (some 3) (oneProcess 0) = (1, s') ∧
      Duplicated 1 2 3 0x100 (oneProcess 0) s' := by
  obtain ⟨s', hs'⟩ := @oneProcess_forks 0 (by decide +kernel) (by decide +kernel)
  obtain ⟨child, t, hchild, ht, hiff⟩ := fork_duplicates (isBase_of_start start_small) smallUser_inv
    (Finset.mem_singleton.mpr (oneProcess_pml4Phys 0)) (by decide +kernel) (fun a ha => by cases ha; decide +kernel)
    (by norm_num [oneProcess]) rfl (fun x _ => oneProcess_frame 0 x) hs' (by decide)
  cases hchild
  cases ht
  exact ⟨s', hs', hiff.mpr (by decide +kernel)⟩

/-- After `brk` moved to 0x400000 the forked child still has a program break of zero. -/
theorem fork_forgets_brk :
    ∃ s', sysFork 1 0x100 (some 2) (some 3) (oneProcess 0x400000) = (1, s') ∧
      ((oneProcess 0x400000).procs.proc 1).brk = 0x400000 ∧ (s'.procs.proc 2).brk = 0 ∧
      ¬Duplicated 1 2 3 0x100 (oneProcess 0x400000) s' := by
  obtain ⟨s', hs'⟩ := @oneProcess_forks 0x400000 (by decide +kernel) (by decide +kernel)
  obtain ⟨child, t, pml4, w, procs, s₁, hf, -⟩ := sysFork_ok hs' (by decide)
  obtain ⟨hmem, -, page, h⟩ := hf.effect
  cases hmem
  obtain ⟨-, -, hbrk, -⟩ := h.records (by decide)
  have hown : ((oneProcess 0x400000).procs.proc 1).brk = 0x400000 := rfl
  refine ⟨s', hs', hown, hbrk, fun hd => ?_⟩
  have hsame := hbrk.symm.trans (hd.brk.trans hown)
  exact absurd hsame (by norm_num)

end Tori.Kernel
