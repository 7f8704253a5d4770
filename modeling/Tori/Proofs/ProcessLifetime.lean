import Tori.Proofs.ForkCopy
import Tori.Proofs.WaitWake

/-! What is left of a child after `sys_fork`, its `sys_exit` and the `sys_waitpid` of its parent: the process
record, its pid and its address space are free again, its kernel stack is not. -/

namespace Tori.Kernel

open Radix Vmm Proc

variable {procs : List Addr} {kids : Addr → List Addr} {init parent child : Addr}

variable {s : State} {pid pml4 : ℕ}

/-! ### The process -/

/-- The child as `sys_exit` leaves it: a zombie on the child list of its parent. -/
structure Exited (parent child : Addr) (pid pml4 : ℕ) (procs : List Addr) (init : Addr) (s s₂ : State) : Prop where
  new : child ∉ procs
  initMem : init ∈ procs
  family : ∃ kids, Family s₂ (child :: procs) kids init ∧ child ∈ kids parent
  state : (s₂.proc child).state = .zombie
  childPid : (s₂.proc child).pid = pid
  pml4Phys : (s₂.proc child).pml4Phys = pml4
  pids : ∀ x ∈ procs, (s₂.proc x).pid = (s.proc x).pid

theorem exit_forked {s' : State} {t : Addr} (h : Family s procs kids init) (hp : parent ∈ procs)
    (hz : (s.proc parent).state ≠ .zombie) (hnew : child ∉ procs) (hc : Created child pid pml4 (some parent) s s')
    (status : ℤ) :
    ∃ task s₂, exitProcess child status ((s'.modify child fun c => { c with fdTable := (s'.proc parent).fdTable }).modify
      child fun c => { c with threadList := some t }) = some (task, s₂) ∧ Exited parent child pid pml4 procs init s s₂ := by
  have hne : parent ≠ child := ne_of_mem_of_not_mem hp hnew
  set s₁ := (s'.modify child fun c => { c with fdTable := (s'.proc parent).fdTable }).modify
    child fun c => { c with threadList := some t }
  have hf₁ : Family s₁ (child :: procs) (addKid kids child (some parent)) init :=
    ((h.created hnew (fun p hpp => Option.some.inj hpp ▸ ⟨hp, hz⟩) hc).modify child (keeps_fdTable _)).modify child
      (keeps_threadList _)
  have hrec : s₁.proc child = { s'.proc child with fdTable := (s'.proc parent).fdTable, threadList := some t } := by
    rw [proc_modify_self, proc_modify_self]
  have hpid₁ : (s₁.proc child).pid = pid := by
    rw [hrec]
    exact congrArg Process.pid hc.record
  have hpml4₁ : (s₁.proc child).pml4Phys = pml4 := by
    rw [hrec]
    exact congrArg Process.pml4Phys hc.record
  have hparent₁ : (s₁.proc child).parent = some parent := by
    rw [hrec]
    exact congrArg Process.parent hc.record
  obtain ⟨s₂, kids₂, hbury, hf₂, hdied, -⟩ := hf₁.buryProcess List.mem_cons_self status
  -- The child is not its own parent, so it is not handed to init.
  have hstay : child ∉ orphans (addKid kids child (some parent)) init child := by
    unfold orphans
    split_ifs with hi
    · exact List.not_mem_nil
    · intro hmem
      rw [hf₁.child child List.mem_cons_self child List.mem_cons_self, hparent₁] at hmem
      exact hne (Option.some.inj hmem)
  have hparent₂ : (s₂.proc child).parent = some parent := by
    rw [hdied.parent, if_neg hstay, hparent₁]
  have hrun : exitProcess child status s₁ = some (wakeParent child s₂) := by
    rw [exitProcess_eq, hbury, Option.map_some]
  refine ⟨(wakeParent child s₂).1, (wakeParent child s₂).2, hrun, hnew, h.initMem, ⟨kids₂, hf₂.wakeParent child, ?_⟩, ?_, ?_, ?_, fun x hx => ?_⟩
  · exact (hf₂.child parent (List.mem_cons_of_mem _ hp) child List.mem_cons_self).mpr hparent₂
  · rw [wakeParent_same child s₂ Process.state fun _ => rfl, hdied.state, if_pos rfl]
  · rw [wakeParent_same child s₂ Process.pid fun _ => rfl]
    exact (field_eq (hdied.rest child) Process.pid fun _ => rfl).trans hpid₁
  · rw [wakeParent_same child s₂ Process.pml4Phys fun _ => rfl]
    exact (field_eq (hdied.rest child) Process.pml4Phys fun _ => rfl).trans hpml4₁
  · have hxc : x ≠ child := ne_of_mem_of_not_mem hx hnew
    have hother := congrArg Process.pid (hc.other x hxc)
    rw [wakeParent_same child s₂ Process.pid fun _ => rfl, field_eq (hdied.rest x) Process.pid fun _ => rfl,
      proc_modify_ne hxc, proc_modify_ne hxc]
    exact hother

/-- A `sys_waitpid` for the child finds it, and one that returns the pid of the child reaped the child. -/
theorem waitpid_exited (s₂ : Machine) (hp : parent ∈ procs)
    (h : Exited parent child pid pml4 procs init s s₂.procs) :
    sysWaitpid parent pid s₂ = some (pid, reap child s₂) ∧
      ∀ target s₃, sysWaitpid parent target s₂ = some (pid, s₃) → s₃ = reap child s₂ := by
  obtain ⟨kids, hf, hchild⟩ := h.family
  have hmem := List.mem_cons_of_mem child hp
  have hpid : ∀ z ∈ kids parent, (s₂.procs.proc z).pid = pid → z = child := fun z hz hzp =>
    hf.pid_inj (hf.kin.sub parent hmem z hz) List.mem_cons_self (hzp.trans h.childPid.symm)
  constructor
  · obtain ⟨r, hr, hsome, hnone⟩ := hf.findZombie hmem pid
    unfold sysWaitpid
    rw [hr]
    cases r with
    | none =>
      refine absurd h.state (hnone rfl child hchild ?_)
      simp [childMatches, h.childPid]
    | some z =>
      -- The pid of init is 0, so the target is positive and names one process.
      have hpos : pid ≠ 0 := fun h0 => ne_of_mem_of_not_mem h.initMem h.new
        (hf.pid_inj hf.initMem List.mem_cons_self (by rw [hf.initPid, h.childPid, h0]))
      obtain ⟨hz, -, hm⟩ := hsome z rfl
      have hzpid : (s₂.procs.proc z).pid = pid := by
        simp only [childMatches, Bool.or_eq_true, decide_eq_true_eq] at hm
        omega
      rw [hpid z hz hzpid]
      simp only [h.childPid]
  · intro target s₃ hw
    obtain ⟨r, hr, hsome, -⟩ := hf.findZombie hmem target
    unfold sysWaitpid at hw
    rw [hr] at hw
    cases r with
    | none => cases hw
    | some z =>
      obtain ⟨hzpid, hs₃⟩ := Prod.mk.inj (Option.some.inj hw)
      rw [← hs₃, hpid z (hsome z rfl).1 hzpid]

theorem reaped_listed {s₂ : State} (hlisted : Listed s procs)
    (h : Exited parent child pid pml4 procs init s s₂) :
    Listed (reapProcess child s₂) procs ∧ ∀ n < maxPids, pidUsed (reapProcess child s₂) n = pidUsed s n := by
  obtain ⟨kids, hf, -⟩ := h.family
  have hr := reapProcess_zombie h.state
  have hfinal := (hf.reaped List.mem_cons_self (ne_of_mem_of_not_mem h.initMem h.new).symm h.state).listed
  rw [List.erase_cons_head] at hfinal
  refine ⟨hfinal, fun n hn => Bool.eq_iff_iff.mpr ?_⟩
  rw [hfinal.bits n hn, hlisted.bits n hn]
  refine exists_congr fun a => and_congr_right fun ha => ?_
  have hpid := congrArg Process.pid (hr.rest a)
  rw [← h.pids a ha]
  exact Eq.congr_left hpid

/-! ### The pages -/

theorem release_retain {r n : ℕ} (hr : 0 < r) (hn : r + n ≤ Pmm.uint16Max) :
    Pmm.releaseState^[n] (Pmm.retainState^[n] (true, r)) = (true, r) := by
  rw [Pmm.retain_iter_true hn, Pmm.release_iter_true (by omega), if_pos (by omega), Nat.add_sub_cancel]

section Pages

variable {t : Addr} {frame page pml4 : ℕ} {w : World} {s s' : Machine} {base : ℕ → Bool × ℕ} {live : Finset ℕ}

/-- The clone took references and new tables; freeing the copy gives back exactly these, unless a counter saturated. -/
theorem cloned_released {src dst : ℕ} (he : CloneEffect s.world w live src dst) (hinv : Inv base s.world live)
    (hb : IsBase base) (hsrc : src ∈ live) {q : ℕ}
    (hq : leaves s.world.mem live q + cnt (refs q) (tree s.world.mem src) ≤ Pmm.uint16Max) :
    Pmm.releaseState^[weight q (tree w.mem dst)] (Pmm.pageState w.pmm q) = Pmm.pageState s.world.pmm q := by
  have hrefs : cnt (refs q) (tree w.mem dst) = cnt (refs q) (tree s.world.mem src) := by
    rw [he.cloned.copy.cnt]
    simp only [refs_copyLeaf]
  have hle : cnt (refs q) (tree s.world.mem src) ≤ leaves s.world.mem live q := cnt_le_leaves hsrc
  rw [weight_eq, hrefs, he.cloned.pmm q]
  rcases Nat.eq_zero_or_pos (own q (tree w.mem dst)) with h0 | hpos
  · rw [if_neg (by omega), h0, Nat.zero_add]
    rcases Nat.eq_zero_or_pos (cnt (refs q) (tree s.world.mem src)) with hn | hn
    · rw [hn]
      rfl
    · rw [hinv.pages q, if_pos (by omega)]
      have htables : tables s.world.mem live q = 0 := by
        have := hinv.apart q
        omega
      exact release_retain (by omega) (by omega)
  · -- A page of the copy's tables was free, so nothing refers to it.
    obtain ⟨ht, hl, hbase⟩ := hinv.free_of_unused (he.cloned.fresh q hpos).2
    have hone := he.cloned.uniq q
    rw [if_pos hpos, show own q (tree w.mem dst) + cnt (refs q) (tree s.world.mem src) = 1 by omega, hinv.pages q,
      if_neg (by omega), (hb.free q hbase).1]
    rfl

theorem ForkEffect.freed (h : ForkEffect parent child t frame page pml4 w s s') (hinv : Inv base s.world live)
    (hb : IsBase base) (hlive : (s.procs.proc parent).pml4Phys ∈ live) :
    (∀ q, page ≤ q → q < page + stackPages → Pmm.pageState s.world.pmm q = (false, 0) ∧
      Pmm.pageState (freeAddressSpace pml4 s'.world).pmm q = (true, 1)) ∧
      ∀ q, ¬(page ≤ q ∧ q < page + stackPages) →
        leaves s.world.mem live q + cnt (refs q) (Vmm.tree s.world.mem (s.procs.proc parent).pml4Phys) ≤ Pmm.uint16Max →
          Pmm.pageState (freeAddressSpace pml4 s'.world).pmm q = Pmm.pageState s.world.pmm q := by
  obtain ⟨hroot, he⟩ := hinv.cloneEffect hb hlive h.clone h.pml4_ne
  have huse := cloneEffect_inUse_copy he (hinv.inUse hb hlive)
  have htree := h.tree huse
  have hf : pml4 / 4096 * 4096 = pml4 := by omega
  obtain ⟨-, hpages⟩ := freeAddressSpace_spec (f := pml4 / 4096) (fun h0 => h.pml4_ne (by omega))
    (by rw [hf, htree]; exact he.cloned.ok)
    (by rw [hf, htree]; exact fun q hq => (huse q (weight_eq q _ ▸ hq)).1)
  rw [hf, htree] at hpages
  refine ⟨fun q h1 h2 => ?_, fun q hq hbound => ?_⟩
  · have hunused : Pmm.isPageUsed s.world.pmm q = false :=
      Bool.eq_false_iff.mpr fun hu => h.not_stack (he.cloned.used (.inl hu)) ⟨h1, h2⟩
    obtain ⟨ht, hl, hbase⟩ := hinv.free_of_unused hunused
    have hweight : weight q (Vmm.tree w.mem pml4) = 0 := by
      by_contra hne
      exact h.not_stack (huse q (weight_eq q _ ▸ Nat.pos_of_ne_zero hne)).2 ⟨h1, h2⟩
    constructor
    · rw [hinv.pages q, if_neg (by omega), (hb.free q hbase).1]
    · rw [hpages, hweight, h.pages, if_pos ⟨h1, h2⟩]
      rfl
  · rw [hpages, h.pages, if_neg hq]
    exact cloned_released he hinv hb hlive hbound

end Pages

/-! ### A whole life -/

/-- Nothing is left over in `s'` from what happened since `s`; `procs` is the process list. -/
structure Balanced (procs : List Addr) (s s' : Machine) : Prop where
  pages : ∀ q, Pmm.pageState s'.world.pmm q = Pmm.pageState s.world.pmm q
  pids : ∀ pid < maxPids, pidUsed s'.procs pid = pidUsed s.procs pid
  list : Listed s.procs procs ∧ Listed s'.procs procs

/-- What a child leaves behind: the four pages from `page` on, its kernel stack. -/
structure Leaked (procs : List Addr) (page : ℕ) (s s' : Machine) : Prop where
  stack : ∀ q, page ≤ q → q < page + stackPages → Pmm.pageState s.world.pmm q = (false, 0) ∧
    Pmm.pageState s'.world.pmm q = (true, 1)
  pids : ∀ pid < maxPids, pidUsed s'.procs pid = pidUsed s.procs pid
  list : Listed s.procs procs ∧ Listed s'.procs procs

theorem Leaked.not_balanced {page : ℕ} {s s' : Machine} (h : Leaked procs page s s') : ¬Balanced procs s s' := by
  intro hbal
  obtain ⟨hfree, hused⟩ := h.stack page le_rfl (Nat.lt_add_of_pos_right (by decide))
  have hsame := hbal.pages page
  rw [hfree, hused] at hsame
  cases hsame

/-- The exit of a forked child and the `sys_waitpid` that reaps it. -/
theorem ForkEffect.lifetime {t : Addr} {frame page : ℕ} {w : World} {s s₁ : Machine} {base : ℕ → Bool × ℕ}
    {live : Finset ℕ} (h : ForkEffect parent child t frame page pml4 w s s₁) (hb : IsBase base)
    (hinv : Inv base s.world live) (hfamily : Family s.procs procs kids init) (hparent : parent ∈ procs)
    (hz : (s.procs.proc parent).state ≠ .zombie) (hlive : (s.procs.proc parent).pml4Phys ∈ live)
    (hfresh : s.procs.live child = false) (status : ℤ) :
    ∃ s₂ s₃, sysExit child status s₁ = some s₂ ∧
      sysWaitpid parent (s₁.procs.proc child).pid s₂ = some ((s₁.procs.proc child).pid, s₃) ∧
      (∀ target s₃', sysWaitpid parent target s₂ = some ((s₁.procs.proc child).pid, s₃') → s₃' = s₃) ∧
      s₃.world = freeAddressSpace pml4 s₁.world ∧ Leaked procs page s s₃ := by
  obtain ⟨pid, procs₁, hc, hprocs⟩ := h.created
  have hnew : child ∉ procs := fun hin => by
    rw [(hfamily.listed.live child).mp hin] at hfresh
    cases hfresh
  obtain ⟨task, p₂, hexit, hex⟩ := exit_forked hfamily hparent hz hnew hc status
  have hpid : (s₁.procs.proc child).pid = pid := by
    rw [hprocs, proc_modify_self, proc_modify_self]
    exact congrArg Process.pid hc.record
  rw [← hprocs] at hexit
  have hrun : sysExit child status s₁ = some { s₁ with procs := p₂ } := by
    rw [sysExit, hexit, Option.map_some]
  obtain ⟨hfound, honly⟩ := waitpid_exited { s₁ with procs := p₂ } hparent hex
  have hreap : reap child { s₁ with procs := p₂ } =
      { s₁ with world := freeAddressSpace pml4 s₁.world, procs := reapProcess child p₂ } := by
    rw [reap, if_neg (not_not.mpr hex.state)]
    simp only [hex.pml4Phys]
  obtain ⟨hlist, hpids⟩ := reaped_listed hfamily.listed hex
  rw [hreap] at hfound honly
  rw [hpid]
  exact ⟨_, _, hrun, hfound, honly, rfl, (h.freed hinv hb hlive).1, hpids, hfamily.listed, hlist⟩

/-- After every successful fork, the exit of the child and the `sys_waitpid` that reaps it, the kernel stack of
the child is still allocated. Everything else is as before, up to reference counts that saturated. -/
theorem fork_exit_wait_leaks {frame : ℕ} {mem threadMem : Option Addr} {s s₁ : Machine} {ret : ℤ}
    {base : ℕ → Bool × ℕ} {live : Finset ℕ} (hb : IsBase base) (hinv : Inv base s.world live)
    (hfamily : Family s.procs procs kids init) (hparent : parent ∈ procs) (hz : (s.procs.proc parent).state ≠ .zombie)
    (hlive : (s.procs.proc parent).pml4Phys ∈ live) (hfresh : ∀ a, mem = some a → s.procs.live a = false)
    (hfork : sysFork parent frame mem threadMem s = (ret, s₁)) (hret : 0 ≤ ret) (status : ℤ) :
    ∃ child pid s₂, mem = some child ∧ ret = ((pid : ℕ) : ℤ) ∧ sysExit child status s₁ = some s₂ ∧
      (∃ s₃, sysWaitpid parent pid s₂ = some (pid, s₃)) ∧
      ∀ target s₃, sysWaitpid parent target s₂ = some (pid, s₃) → ¬Balanced procs s s₃ ∧
        ∃ page, Leaked procs page s s₃ ∧ ∀ q, ¬(page ≤ q ∧ q < page + stackPages) →
          leaves s.world.mem live q + cnt (refs q) (tree s.world.mem (s.procs.proc parent).pml4Phys) ≤ Pmm.uint16Max →
            Pmm.pageState s₃.world.pmm q = Pmm.pageState s.world.pmm q := by
  obtain ⟨child, t, pml4, w, procs', s', hf, hpid⟩ := sysFork_ok hfork hret
  obtain ⟨hmem, -, page, h⟩ := hf.effect
  obtain ⟨s₂, s₃, hexit, hwait, honly, hworld, hleak⟩ :=
    h.lifetime hb hinv hfamily hparent hz hlive (hfresh child hmem) status
  have hsame : (s₁.procs.proc child).pid = (s'.procs.proc child).pid := by
    rw [hf.final]
    rw [proc_modify_self]
  refine ⟨child, _, s₂, hmem, ?_, hexit, ⟨s₃, hwait⟩, fun target s₃' hw => ?_⟩
  · rw [hpid, hsame]
  · rw [honly target s₃' hw]
    refine ⟨hleak.not_balanced, page, hleak, fun q hq hbound => ?_⟩
    rw [hworld]
    exact (h.freed hinv hb hlive).2 q hq hbound

theorem oneProcess_family : Family (oneProcess 0).procs [1] (fun _ => []) 1 :=
  (family_boot 1 0x1000 fun _ => rfl).modify 1
    ⟨fun _ => rfl, fun _ => rfl, fun _ hz => hz⟩

theorem fork_exit_wait_leaks_small :
    ∃ s₁ s₂ s₃, sysFork 1 0x100 (some 2) (some 3) (oneProcess 0) = (1, s₁) ∧ sysExit 2 7 s₁ = some s₂ ∧
      sysWaitpid 1 1 s₂ = some (1, s₃) ∧ ∃ page, Leaked [1] page (oneProcess 0) s₃ := by
  obtain ⟨s₁, hfork⟩ := @oneProcess_forks 0 (by decide +kernel) (by decide +kernel)
  obtain ⟨child, pid, s₂, hchild, hpid, hexit, ⟨s₃, hwait⟩, hall⟩ := fork_exit_wait_leaks (isBase_of_start start_small)
    smallUser_inv oneProcess_family List.mem_cons_self (by decide +kernel)
    (Finset.mem_singleton.mpr (oneProcess_pml4Phys 0)) (fun a ha => by cases ha; decide +kernel) hfork (by decide) 7
  cases hchild
  obtain rfl : pid = 1 := by omega
  obtain ⟨-, page, hleak, -⟩ := hall 1 s₃ hwait
  exact ⟨s₁, s₂, s₃, hfork, hexit, hwait, page, hleak⟩

/-- The first fork of a small machine: a page of the child's kernel stack stays allocated. -/
theorem child_stack_stays :
    ∃ s₁ s₂ s₃ page, sysFork 1 0x100 (some 2) (some 3) (oneProcess 0) = (1, s₁) ∧ sysExit 2 0 s₁ = some s₂ ∧
      sysWaitpid 1 1 s₂ = some (1, s₃) ∧ Pmm.pageState (oneProcess 0).world.pmm page = (false, 0) ∧
      Pmm.pageState s₃.world.pmm page = (true, 1) ∧ ¬Balanced [1] (oneProcess 0) s₃ := by
  obtain ⟨s₁, hfork⟩ := @oneProcess_forks 0 (by decide +kernel) (by decide +kernel)
  obtain ⟨child, t, pml4, w, procs', s', hf, hpid⟩ := sysFork_ok hfork (by decide)
  obtain ⟨hmem, -, page, h⟩ := hf.effect
  cases hmem
  obtain ⟨s₂, s₃, hexit, hwait, -, -, hleak⟩ := h.lifetime (isBase_of_start start_small) smallUser_inv oneProcess_family
    List.mem_cons_self (by decide +kernel) (Finset.mem_singleton.mpr (oneProcess_pml4Phys 0)) (by decide +kernel) 0
  have hone : (s₁.procs.proc 2).pid = 1 := by
    rw [hf.final]
    rw [proc_modify_self]
    exact_mod_cast hpid.symm
  rw [hone] at hwait
  obtain ⟨hfree, hused⟩ := hleak.stack page le_rfl (Nat.lt_add_of_pos_right (by decide))
  exact ⟨s₁, s₂, s₃, page, hfork, hexit, hwait, hfree, hused, hleak.not_balanced⟩

end Tori.Kernel
