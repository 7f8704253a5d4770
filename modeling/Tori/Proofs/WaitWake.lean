import Tori.Spec.Wait
import Tori.Proofs.ProcessTree

/-! A process that blocks in `sys_waitpid` has a child to wait for, as long as no process hands a zombie
to an init that is blocked there: `sys_exit` wakes the parent of the process that exits, not the new
parent of its children. -/

namespace Tori.Proc

open DList Function

variable {s : Sys} {procs : List Addr} {kids : Addr → List Addr} {init : Addr}

variable {s' : State} {a p d : Addr} {pml4Phys : ℕ} {parent mem : Option Addr} {target : ℤ} {kids' : Addr → List Addr}

/-- `p` has a child that matches `target`, and none that matches has exited. -/
def HasSomething (s : Sys) (p : Addr) (target : ℤ) : Prop :=
  (∃ q, s.procs.live q = true ∧ (s.procs.proc q).parent = some p ∧ childMatches s.procs target q = true) ∧
    ∀ q, s.procs.live q = true → (s.procs.proc q).parent = some p → childMatches s.procs target q = true →
      (s.procs.proc q).state ≠ .zombie

def WaitsForChild (s : Sys) : Prop :=
  ∀ p target, s.procs.live p = true → s.thread p = .blocked target → HasSomething s p target

/-- The wait task that goes with a thread. -/
def Thread.task (p : Addr) : Thread → Option Addr
  | .blocked _ => some p
  | _ => none

structure Waiting (s : Sys) (procs : List Addr) (kids : Addr → List Addr) (init : Addr) : Prop where
  family : Family s.procs procs kids init
  fresh : ∀ a, s.procs.live a = false → s.thread a = .gone
  alive : ∀ p ∈ procs, s.thread p ≠ .gone → (s.procs.proc p).state ≠ .zombie
  task : ∀ p ∈ procs, (s.procs.proc p).waitTask = (s.thread p).task p
  notSelf : ∀ q ∈ procs, (s.procs.proc q).parent ≠ some q
  waits : WaitsForChild s

/-! ### New processes -/

/-- What the parent of a process looks at. -/
def Process.ward (p : Process) : ℕ × ProcessState × Option Addr := (p.pid, p.state, p.parent)

/-- The fields of a process that waiting is about. -/
def Process.view (p : Process) : (ℕ × ProcessState × Option Addr) × Option Addr := (p.ward, p.waitTask)

variable {q c : Addr} {f : Process → Process} {procs' : List Addr} {s₀ : State}

theorem childMatches_congr {s : State} (h : (s'.proc q).pid = (s.proc q).pid) (target : ℤ) :
    childMatches s' target q = childMatches s target q := by
  unfold childMatches
  rw [h]

/-- The new process `a` with the parent `parent`; the other processes are as before. -/
structure Grown (a : Addr) (parent : Option Addr) (s s' : State) : Prop where
  live : s'.live = update s.live a true
  other : ∀ x, x ≠ a → (s'.proc x).view = (s.proc x).view
  parent : (s'.proc a).parent = parent
  state : (s'.proc a).state ≠ .zombie
  waitTask : (s'.proc a).waitTask = none

theorem Created.grown {pid : ℕ} {s : State}
    (h : Created a pid pml4Phys parent s s') : Grown a parent s s' := by
  refine ⟨h.live, fun x hx => h.field Process.view (fun _ => rfl) hx, ?_, ?_, ?_⟩
  · exact congrArg Process.parent h.record
  · have : (s'.proc a).state = .alive := congrArg Process.state h.record
    rw [this]
    decide
  · exact congrArg Process.waitTask h.record

/-- `f` has nothing to do with the tree or with waiting, and does not make a zombie. -/
structure Keeps (f : Process → Process) : Prop where
  links : ∀ p, (f p).links = p.links
  waitTask : ∀ p, (f p).waitTask = p.waitTask
  state : ∀ p, (f p).state = .zombie → p.state = .zombie

theorem keeps_fdTable (t : Vfs.FdTable Addr) : Keeps fun c => { c with fdTable := t } :=
  ⟨fun _ => rfl, fun _ => rfl, fun _ hz => hz⟩

theorem keeps_dead : Keeps fun c => { c with state := .dead } :=
  ⟨fun _ => rfl, fun _ => rfl, fun _ hz => (nomatch hz)⟩

theorem keeps_threadList (t : Option Addr) : Keeps fun c => { c with threadList := t } :=
  ⟨fun _ => rfl, fun _ => rfl, fun _ hz => hz⟩

theorem keeps_image (brkBase : ℕ) (t : Option Addr) :
    Keeps fun p => { p with brk := brkBase, brkBase := brkBase, threadList := t } :=
  ⟨fun _ => rfl, fun _ => rfl, fun _ hz => hz⟩

theorem Grown.modify {s : State} (h : Grown a parent s s')
    (hf : Keeps f) : Grown a parent s (s'.modify a f) := by
  refine ⟨h.live, fun x hx => ?_, ?_, ?_, ?_⟩
  · rw [proc_modify_ne hx]
    exact h.other x hx
  · rw [proc_modify_self]
    exact (congrArg (·.2.2) (hf.links _)).trans h.parent
  · rw [proc_modify_self]
    exact fun hz => h.state (hf.state _ hz)
  · rw [proc_modify_self, hf.waitTask]
    exact h.waitTask

theorem Family.modify {s : State} (h : Family s procs kids init) (x : Addr) (hf : Keeps f) :
    Family (s.modify x f) procs kids init :=
  h.modify_links x hf.links hf.state

/-- The two outcomes of a system call that makes a process. -/
inductive Launched (procs : List Addr) (parent : Option Addr) (s : State) : Option Addr × State → List Addr → Prop
  | failed {s' : State} (hlive : s'.live = s.live) (hview : ∀ x ∈ procs, (s'.proc x).view = (s.proc x).view) :
      Launched procs parent s (none, s') procs
  | grown {s' : State} {a : Addr} {r : Option Addr} (ha : a ∉ procs) (hr : r = some a ∨ r = none)
      (hg : Grown a parent s s') : Launched procs parent s (r, s') (a :: procs)

theorem Family.create_cases {s : State} {r : Option Addr} (h : Family s procs kids init)
    (hfresh : ∀ a, mem = some a → s.live a = false)
    (hpar : ∀ p, parent = some p → p ∈ procs ∧ (s.proc p).state ≠ .zombie)
    (hs : processCreate mem pml4Phys parent s = (r, s')) :
    (r = none ∧ Family s' procs kids init ∧ s'.live = s.live ∧ ∀ x ∈ procs, (s'.proc x).view = (s.proc x).view) ∨
      ∃ a kids', r = some a ∧ a ∉ procs ∧ Family s' (a :: procs) kids' init ∧ Grown a parent s s' := by
  cases r with
  | none =>
    rcases processCreate_fail hs with ⟨-, rfl⟩ | ⟨b, hb, rfl, -⟩
    · exact Or.inl ⟨rfl, h, rfl, fun _ _ => rfl⟩
    · have hbl := hfresh b hb
      exact Or.inl ⟨rfl, h.failed hbl, (SameTables.failed hbl).live, fun x hx => by rw [h.listed.failed_proc hbl x hx]⟩
  | some a =>
    obtain ⟨hmem, pid, hc⟩ := processCreate_ok hs
    have ha : a ∉ procs := fun ha => by
      have := hfresh a hmem
      rw [(h.listed.live a).mp ha] at this
      cases this
    exact Or.inr ⟨a, _, rfl, ha, h.created ha hpar hc, hc.grown⟩

theorem Family.forkProcess {s : State} (h : Family s procs kids init) (hp : p ∈ procs)
    (halive : (s.proc p).state ≠ .zombie) (hfresh : ∀ a, mem = some a → s.live a = false) (pml4Phys : ℕ)
    (thread : Option Addr) : ∃ procs' kids', Family (forkProcess p mem pml4Phys thread s).2 procs' kids' init ∧
      Launched procs (some p) s (forkProcess p mem pml4Phys thread s) procs' := by
  unfold Proc.forkProcess
  rcases hs : processCreate mem pml4Phys (some p) s with ⟨r, s1⟩
  have hpar : ∀ x, some p = some x → x ∈ procs ∧ (s.proc x).state ≠ .zombie := by
    rintro x ⟨⟩
    exact ⟨hp, halive⟩
  rcases h.create_cases hfresh hpar hs with ⟨rfl, h1, hlive, hview⟩ | ⟨a, kids1, rfl, ha, h1, hg⟩
  · exact ⟨procs, kids, h1, .failed hlive hview⟩
  · have h2 := h1.modify a (keeps_fdTable (s1.proc p).fdTable)
    have hg2 := hg.modify (keeps_fdTable (s1.proc p).fdTable)
    cases thread with
    | none => exact ⟨a :: procs, kids1, h2.modify a keeps_dead, .grown ha (Or.inr rfl) (hg2.modify keeps_dead)⟩
    | some t =>
      exact ⟨a :: procs, kids1, h2.modify a (keeps_threadList t), .grown ha (Or.inl rfl) (hg2.modify (keeps_threadList t))⟩

theorem Family.spawnProcess {s : State} (h : Family s procs kids init)
    (hfresh : ∀ a, mem = some a → s.live a = false) (pml4Phys : ℕ) (image : Option ℕ) (thread : Option Addr) :
    ∃ procs' kids', Family (spawnProcess mem pml4Phys image thread s).2 procs' kids' init ∧
      Launched procs none s (spawnProcess mem pml4Phys image thread s) procs' := by
  unfold Proc.spawnProcess
  rcases hs : processCreate mem pml4Phys none s with ⟨r, s1⟩
  have hpar : ∀ x, none = some x → x ∈ procs ∧ (s.proc x).state ≠ .zombie := nofun
  rcases h.create_cases hfresh hpar hs with ⟨rfl, h1, hlive, hview⟩ | ⟨a, kids1, rfl, ha, h1, hg⟩
  · exact ⟨procs, kids, h1, .failed hlive hview⟩
  · have hdead := h1.modify a keeps_dead
    have hgdead := hg.modify keeps_dead
    cases image with
    | none => exact ⟨a :: procs, kids1, hdead, .grown ha (Or.inr rfl) hgdead⟩
    | some brkBase =>
      cases thread with
      | none => exact ⟨a :: procs, kids1, hdead, .grown ha (Or.inr rfl) hgdead⟩
      | some t =>
        exact ⟨a :: procs, kids1, h1.modify a (keeps_image brkBase t),
          .grown ha (Or.inl rfl) (hg.modify (keeps_image brkBase t))⟩

theorem view_state {p p' : Process} (h : p'.view = p.view) : p'.state = p.state := congrArg (·.1.2.1) h

theorem view_parent {p p' : Process} (h : p'.view = p.view) : p'.parent = p.parent := congrArg (·.1.2.2) h

theorem view_waitTask {p p' : Process} (h : p'.view = p.view) : p'.waitTask = p.waitTask := congrArg Prod.snd h

theorem HasSomething.congr {s' : Sys} (h : HasSomething s p target)
    (hlive : ∀ q, s'.procs.live q = true → (s'.procs.proc q).parent = some p → s.procs.live q = true)
    (hkeep : ∀ q, s.procs.live q = true → (s.procs.proc q).parent = some p → (s.procs.proc q).state ≠ .zombie →
      s'.procs.live q = true)
    (hward : ∀ q, s.procs.live q = true → (s'.procs.proc q).ward = (s.procs.proc q).ward) : HasSomething s' p target := by
  obtain ⟨⟨c, hcl, hcp, hcm⟩, hno⟩ := h
  have hpid : ∀ q, s.procs.live q = true → (s'.procs.proc q).pid = (s.procs.proc q).pid := fun q hq =>
    congrArg Prod.fst (hward q hq)
  have hparent : ∀ q, s.procs.live q = true → (s'.procs.proc q).parent = (s.procs.proc q).parent := fun q hq =>
    congrArg (·.2.2) (hward q hq)
  refine ⟨⟨c, hkeep c hcl hcp (hno c hcl hcp hcm), (hparent c hcl).trans hcp, ?_⟩, fun q hq hqp hqm => ?_⟩
  · rw [childMatches_congr (hpid c hcl)]
    exact hcm
  · have hql := hlive q hq hqp
    rw [show (s'.procs.proc q).state = _ from congrArg (·.2.1) (hward q hql)]
    exact hno q hql ((hparent q hql).symm.trans hqp) (by rw [← childMatches_congr (hpid q hql)]; exact hqm)

section

variable (h : Waiting s procs kids init)
include h

theorem Waiting.removed (hf : Family s' procs' kids' init) (hsub : ∀ q ∈ procs', q ∈ procs)
    (hkeep : ∀ q ∈ procs, (s.procs.proc q).state ≠ .zombie → q ∈ procs')
    (hview : ∀ y ∈ procs, (s'.proc y).view = (s.procs.proc y).view) : Waiting { s with procs := s' } procs' kids' init := by
  have hlive : ∀ {q}, q ∈ procs ↔ s.procs.live q = true := h.family.listed.live _
  have hlive' : ∀ {q}, q ∈ procs' ↔ s'.live q = true := hf.listed.live _
  refine ⟨hf, fun a ha => ?_, fun p hp hg => ?_, fun p hp => ?_, fun q hq => ?_, fun p target hp hb => ?_⟩
  · by_cases hap : a ∈ procs
    · by_contra hgone
      have := hlive'.mp (hkeep a hap (h.alive a hap hgone))
      exact Bool.noConfusion (this.symm.trans ha)
    · exact h.fresh a (Bool.eq_false_iff.mpr fun hl => hap (hlive.mpr hl))
  · exact view_state (hview p (hsub p hp)) ▸ h.alive p (hsub p hp) hg
  · exact (view_waitTask (hview p (hsub p hp))).trans (h.task p (hsub p hp))
  · exact view_parent (hview q (hsub q hq)) ▸ h.notSelf q (hsub q hq)
  · refine (h.waits p target (hlive.mp (hsub p (hlive'.mpr hp))) hb).congr (fun q hq _ => ?_) (fun q hq _ hz => ?_)
      fun q hq => congrArg Prod.fst (hview q (hlive.mpr hq))
    · exact hlive.mp (hsub q (hlive'.mpr hq))
    · exact hlive'.mp (hkeep q (hlive.mpr hq) hz)

theorem Waiting.launched {r : Option Addr × State} (hpar : ∀ p, parent = some p → s.thread p = .user)
    (hl : Launched procs parent s.procs r procs') (hf : Family r.2 procs' kids' init) :
    Waiting (s.launch r) procs' kids' init := by
  cases hl with
  | failed hlive hview => exact h.removed hf (fun _ hq => hq) (fun _ hq _ => hq) hview
  | @grown s' a r ha hr hg =>
    have hne : ∀ {x}, x ∈ procs → x ≠ a := fun hx => ne_of_mem_of_not_mem hx ha
    have hdead : s.procs.live a = false := by
      rw [← Bool.not_eq_true]
      exact fun hla => ha ((h.family.listed.live a).mpr hla)
    have hlaunch : (s.launch (r, s')).procs = s' ∧
        ∀ x, (s.launch (r, s')).thread x = s.thread x ∨ (x = a ∧ (s.launch (r, s')).thread x = .user) := by
      rcases hr with rfl | rfl
      · refine ⟨rfl, fun x => ?_⟩
        by_cases hx : x = a
        · exact Or.inr ⟨hx, hx ▸ update_self _ _ _⟩
        · exact Or.inl (update_of_ne hx _ _)
      · exact ⟨rfl, fun x => Or.inl rfl⟩
    obtain ⟨hprocs, hthread⟩ := hlaunch
    have hold : ∀ {x}, x ≠ a → (s.launch (r, s')).thread x = s.thread x := fun hx =>
      (hthread _).resolve_right fun hxa => hx hxa.1
    have hnotBlocked : ∀ target, (s.launch (r, s')).thread a ≠ .blocked target := fun target hb => by
      rcases hthread a with hta | ⟨-, hta⟩
      · rw [hta, h.fresh a hdead] at hb
        cases hb
      · rw [hta] at hb
        cases hb
    have hlive : ∀ x, x ≠ a → s'.live x = s.procs.live x := fun x hx => by rw [hg.live, update_of_ne hx]
    refine ⟨hprocs.symm ▸ hf, fun x hx => ?_, fun p hp hgone => ?_, fun p hp => ?_, fun q hq => ?_, fun p target hp hb => ?_⟩
    · rw [hprocs] at hx
      have hxa : x ≠ a := by
        rintro rfl
        rw [hg.live, update_self] at hx
        cases hx
      rw [hold hxa]
      exact h.fresh x (by rw [← hlive x hxa]; exact hx)
    · rw [hprocs]
      rcases List.mem_cons.mp hp with rfl | hp
      · exact hg.state
      · rw [hold (hne hp)] at hgone
        exact view_state (hg.other p (hne hp)) ▸ h.alive p hp hgone
    · rw [hprocs]
      rcases List.mem_cons.mp hp with rfl | hp
      · rw [hg.waitTask]
        rcases hthread p with ht | ⟨-, ht⟩
        · rw [ht, h.fresh p hdead]
          rfl
        · rw [ht]
          rfl
      · rw [hold (hne hp)]
        exact (view_waitTask (hg.other p (hne hp))).trans (h.task p hp)
    · rw [hprocs]
      rcases List.mem_cons.mp hq with rfl | hq
      · rw [hg.parent]
        intro hself
        have := hpar q hself
        rw [h.fresh q hdead] at this
        cases this
      · exact view_parent (hg.other q (hne hq)) ▸ h.notSelf q hq
    · -- The parent of the new process runs, so it is not the one that waits.
      have hpa : p ≠ a := fun he => hnotBlocked target (he ▸ hb)
      rw [hprocs, hlive p hpa] at hp
      rw [hold hpa] at hb
      refine (h.waits p target hp hb).congr (fun q hq hqp => ?_) (fun q hq _ _ => ?_) fun q hq => ?_
      · rw [hprocs] at hq hqp
        have hqa : q ≠ a := by
          rintro rfl
          rw [hpar p (hg.parent.symm.trans hqp)] at hb
          cases hb
        rw [← hlive q hqa]
        exact hq
      · rw [hprocs, hg.live]
        by_cases hqa : q = a
        · rw [hqa, update_self]
        · rw [update_of_ne hqa]
          exact hq
      · rw [hprocs]
        exact congrArg Prod.fst (hg.other q (hne ((h.family.listed.live q).mpr hq)))

/-! ### Rounds of `sys_waitpid` -/

section

variable (hp : p ∈ procs) (hrun : s.thread p ≠ .gone)
include hp hrun

/-- A thread that runs turns to `t`; if it blocks, there is something to wait for. -/
theorem Waiting.turns {t : Thread} (hwait : ∀ target, t = .blocked target → HasSomething s p target) :
    Waiting ⟨s.procs.modify p fun r => { r with waitTask := t.task p }, update s.thread p t⟩ procs kids init := by
  have hother : ∀ {x}, x ≠ p → update s.thread p t x = s.thread x := fun hx => update_of_ne hx _ _
  have hward : ∀ y, ((s.procs.modify p fun r => { r with waitTask := t.task p }).proc y).ward = (s.procs.proc y).ward :=
    fun y => proc_modify_same Process.ward p y s.procs fun _ => rfl
  refine ⟨h.family.waits p _, fun a ha => ?_, fun q hq hg => ?_, fun q hq => ?_, fun q hq => ?_, fun q target hq hb => ?_⟩
  · have hap : a ≠ p := by
      rintro rfl
      exact Bool.noConfusion (((h.family.listed.live a).mp hp).symm.trans ha)
    exact (hother hap).trans (h.fresh a ha)
  · rw [show Process.state _ = _ from congrArg (·.2.1) (hward q)]
    by_cases hqp : q = p
    · exact hqp ▸ h.alive p hp hrun
    · exact h.alive q hq fun hgone => hg ((hother hqp).trans hgone)
  · dsimp only
    by_cases hqp : q = p
    · rw [hqp, proc_modify_self, update_self]
    · rw [proc_modify_ne hqp, hother hqp]
      exact h.task q hq
  · rw [show Process.parent _ = _ from congrArg (·.2.2) (hward q)]
    exact h.notSelf q hq
  · have hsomething : HasSomething s q target := by
      by_cases hqp : q = p
      · subst hqp
        exact hwait target ((update_self _ _ _).symm.trans hb)
      · exact h.waits q target hq ((hother hqp).symm.trans hb)
    exact hsomething.congr (fun _ hx _ => hx) (fun _ hx _ _ => hx) fun y _ => hward y

/-- A thread that runs stays with what it sees. -/
theorem Waiting.returns (hnb : ∀ target, s.thread p ≠ .blocked target) :
    Waiting { s with thread := update s.thread p .user } procs kids init := by
  have hnone : (s.procs.proc p).waitTask = none := by
    rw [h.task p hp]
    cases ht : s.thread p with
    | blocked target => exact absurd ht (hnb target)
    | _ => rfl
  have hturns := h.turns hp hrun (t := .user) (by rintro target ⟨⟩)
  rwa [modify_eq_self (congrArg (fun task => { s.procs.proc p with waitTask := task }) hnone.symm)] at hturns

theorem Waiting.blocks (hc : c ∈ kids p) (hm : childMatches s.procs target c = true)
    (hno : ∀ q ∈ kids p, childMatches s.procs target q = true → (s.procs.proc q).state ≠ .zombie) :
    Waiting ⟨s.procs.modify p fun r => { r with waitTask := some p }, update s.thread p (.blocked target)⟩
      procs kids init := by
  refine h.turns hp hrun (t := .blocked target) ?_
  rintro _ ⟨⟩
  have hcp := h.family.kin.sub p hp c hc
  exact ⟨⟨c, (h.family.listed.live c).mp hcp, (h.family.child p hp c hcp).mp hc, hm⟩,
    fun x hx hxp => hno x ((h.family.child p hp x ((h.family.listed.live x).mpr hx)).mpr hxp)⟩

theorem Waiting.round (hnb : ∀ target, s.thread p ≠ .blocked target) (target : ℤ) (noHang : Bool) :
    ∃ s' procs' kids', s.round p target noHang = some s' ∧ Waiting s' procs' kids' init := by
  obtain ⟨r, s1, hs1, hw⟩ := h.family.waitRound hp target noHang
  have hreturns := h.returns hp hrun hnb
  unfold Sys.round
  rw [hs1]
  cases hw with
  | @reaped z hz hstate hm =>
    have hzp := h.family.kin.sub p hp z hz
    have hmem : ∀ {q}, q ∈ procs.erase z ↔ q ≠ z ∧ q ∈ procs := List.Nodup.mem_erase_iff h.family.listed.linked.nodup
    refine ⟨_, _, _, rfl, hreturns.removed (h.family.reaped hzp (h.family.kid_ne_init hp hz) hstate)
      (fun q hq => (hmem.mp hq).2) (fun q hq hqz => hmem.mpr ⟨?_, hq⟩) fun q _ => (reapProcess_zombie hstate).field Process.view (fun _ => rfl) q⟩
    rintro rfl
    exact hqz hstate
  | noChild hno => exact ⟨_, _, _, rfl, hreturns⟩
  | noHang hn => exact ⟨_, _, _, rfl, hreturns⟩
  | block hn hc hm hno => exact ⟨_, _, _, rfl, h.blocks hp hrun hc hm hno⟩

end

end

/-! ### Exit -/

/-- What `sys_exit` of `d` must not do: hand a zombie to an init that waits for any child and is not woken. -/
def Quiet (init : Addr) (s : Sys) (d : Addr) : Prop :=
  ∀ target, s.thread init = .blocked target → target ≤ 0 → (s.procs.proc d).parent ≠ some init →
    ∀ c, s.procs.live c = true → (s.procs.proc c).parent = some d → (s.procs.proc c).state ≠ .zombie

/-- The threads after `sys_exit`. -/
def exitThread (s : Sys) (d y : Addr) : Thread :=
  if y = d then .gone else if (s.procs.proc d).parent = some y then wakeThread (s.thread y) else s.thread y

theorem exitThread_blocked {y : Addr} : exitThread s d y = .blocked target ↔
    y ≠ d ∧ (s.procs.proc d).parent ≠ some y ∧ s.thread y = .blocked target := by
  unfold exitThread
  split_ifs with hyd hpy
  · simp [hyd]
  · refine iff_of_false (fun hb => ?_) fun hb => hb.2.1 hpy
    cases ht : s.thread y <;> rw [ht] at hb <;> cases hb
  · simp [hyd, hpy]

/-- One `sys_exit`: what the fields and the threads are afterwards. -/
structure ExitStep (d init : Addr) (s s' : Sys) (procs : List Addr) : Prop where
  live : ∀ a, s'.procs.live a = s.procs.live a
  pid : ∀ y, (s'.procs.proc y).pid = (s.procs.proc y).pid
  parent : ∀ y ∈ procs, (s'.procs.proc y).parent =
    if d ≠ init ∧ (s.procs.proc y).parent = some d then some init else (s.procs.proc y).parent
  state : ∀ y, (s'.procs.proc y).state = if y = d then .zombie else (s.procs.proc y).state
  waitTask : ∀ y, (s'.procs.proc y).waitTask =
    if (s.procs.proc d).parent = some y then none else (s.procs.proc y).waitTask
  thread : ∀ y, s'.thread y = exitThread s d y

theorem Waiting.exitStep (h : Waiting s procs kids init) (hd : d ∈ procs) (status : ℤ) :
    ∃ s' kids', s.step (.exit d status) = some s' ∧ Family s'.procs procs kids' init ∧ ExitStep d init s s' procs := by
  obtain ⟨s1, kids1, hbury, h1, hdied, hwait⟩ := h.family.buryProcess hd status
  have horphan : ∀ y ∈ procs, y ∈ orphans kids init d ↔ d ≠ init ∧ (s.procs.proc y).parent = some d := fun y hy => by
    unfold orphans
    split_ifs with hdi
    · simp [hdi]
    · simp [hdi, h.family.child d hd y hy]
  have hdparent : (s1.proc d).parent = (s.procs.proc d).parent := by
    rw [hdied.parent, if_neg fun ho => h.notSelf d hd ((horphan d hd).mp ho).2]
  have hwoken : (wakeParent d s1).1 = (s.procs.proc d).parent.bind fun p => (s.thread p).task p := by
    rw [wakeParent_woken, hdparent]
    cases hp : (s.procs.proc d).parent with
    | none => rfl
    | some p =>
      rw [Option.bind_some, Option.bind_some, hwait]
      exact h.task p (h.family.parent d hd p hp)
  have hstep : s.step (.exit d status) = some ⟨(wakeParent d s1).2, wake (update s.thread d .gone) (wakeParent d s1).1⟩ := by
    dsimp only [Sys.step]
    rw [exitProcess_eq, hbury]
    rfl
  refine ⟨_, kids1, hstep, h1.wakeParent d, fun a => ?_, fun y => ?_, fun y hy => ?_, fun y => ?_, fun y => ?_, fun y => ?_⟩
  · refine Bool.eq_iff_iff.mpr ?_
    rw [← (h1.wakeParent d).listed.live a, h.family.listed.live a]
  · rw [wakeParent_same d s1 Process.pid fun _ => rfl]
    exact field_eq (hdied.rest y) Process.pid fun _ => rfl
  · rw [wakeParent_same d s1 Process.parent fun _ => rfl, hdied.parent]
    simp only [horphan y hy]
  · rw [wakeParent_same d s1 Process.state fun _ => rfl, hdied.state]
  · dsimp only
    rw [wakeParent_proc, hdparent]
    split_ifs
    · rfl
    · exact hwait y
  · dsimp only
    rw [hwoken]
    unfold exitThread
    cases hp : (s.procs.proc d).parent with
    | none =>
      simp [wake, update_apply]
    | some p =>
      have hpd : p ≠ d := by
        rintro rfl
        exact h.notSelf p hd hp
      rw [Option.bind_some]
      by_cases hyp : y = p
      · subst hyp
        cases ht : s.thread y <;> simp [Thread.task, wake, wakeThread, hpd, ht]
      · have hpy : p ≠ y := Ne.symm hyp
        cases ht : s.thread p <;> simp [Thread.task, wake, update_apply, hyp, hpy]

theorem childMatches_any (s : State) (h : target ≤ 0) (q : Addr) : childMatches s target q = true := by
  simp [childMatches, h]

theorem childMatches_one {s : State} (h : 0 < target) :
    childMatches s target q = true ↔ ((s.proc q).pid : ℤ) = target := by
  simp [childMatches, not_le.mpr h]

section

variable (h : Waiting s procs kids init)
include h

theorem ExitStep.quiet {s' : Sys} (hd : s.thread d = .user)
    (he : ExitStep d init s s' procs) (hw : WaitsForChild s') : Quiet init s d := by
  intro target hinit hle hpar c hcl hcp hz
  have hne : init ≠ d := by
    rintro rfl
    rw [hd] at hinit
    cases hinit
  have hblocked : s'.thread init = .blocked target := (he.thread init).trans (exitThread_blocked.mpr ⟨hne, hpar, hinit⟩)
  have hlive : s'.procs.live init = true := (he.live init).trans ((h.family.listed.live init).mp h.family.initMem)
  refine (hw init target hlive hblocked).2 c ((he.live c).trans hcl) ?_ (childMatches_any _ hle c) ?_
  · rw [he.parent c ((h.family.listed.live c).mpr hcl), if_pos ⟨Ne.symm hne, hcp⟩]
  · rw [he.state]
    split_ifs
    · rfl
    · exact hz

/-- A zombie that init gets is no child it waits for by pid: that child it had before. -/
theorem Waiting.inherited (hq : Quiet init s d)
    (hdi : d ≠ init) (hinit : s.thread init = .blocked target) (hpar : (s.procs.proc d).parent ≠ some init)
    (hcl : s.procs.live c = true) (hcp : (s.procs.proc c).parent = some d)
    (hm : childMatches s.procs target c = true) : (s.procs.proc c).state ≠ .zombie := by
  rcases le_or_gt target 0 with hle | hgt
  · exact hq target hinit hle hpar c hcl hcp
  · have hlive := (h.family.listed.live init).mp h.family.initMem
    obtain ⟨⟨x, hxl, hxp, hxm⟩, -⟩ := h.waits init target hlive hinit
    have hpid : (s.procs.proc x).pid = (s.procs.proc c).pid := by
      have := (childMatches_one hgt).mp hxm
      have := (childMatches_one hgt).mp hm
      omega
    have hxc : x = c := List.inj_on_of_nodup_map h.family.listed.distinct ((h.family.listed.live x).mpr hxl)
      ((h.family.listed.live c).mpr hcl) hpid
    rw [hxc, hcp] at hxp
    exact absurd (Option.some.inj hxp) hdi

theorem ExitStep.waits {s' : Sys} (he : ExitStep d init s s' procs) (hq : Quiet init s d) : WaitsForChild s' := by
  intro p target hp hb
  rw [he.thread, exitThread_blocked] at hb
  obtain ⟨hpd, hpar, hb⟩ := hb
  rw [he.live] at hp
  obtain ⟨⟨c, hcl, hcp, hcm⟩, hno⟩ := h.waits p target hp hb
  have hmem : ∀ {q}, s.procs.live q = true → q ∈ procs := (h.family.listed.live _).mpr
  refine ⟨⟨c, (he.live c).trans hcl, ?_, ?_⟩, fun q hql hqp hqm => ?_⟩
  · rw [he.parent c (hmem hcl), if_neg fun hd => hpd (Option.some.inj (hcp.symm.trans hd.2)), hcp]
  · rw [childMatches_congr (he.pid c)]
    exact hcm
  · rw [he.live] at hql
    rw [he.parent q (hmem hql)] at hqp
    rw [childMatches_congr (he.pid q)] at hqm
    have hqd : (s.procs.proc q).state ≠ .zombie ∧ q ≠ d := by
      split_ifs at hqp with hmoved
      · cases hqp
        refine ⟨h.inherited hq hmoved.1 hb hpar hql hmoved.2 hqm, ?_⟩
        rintro rfl
        exact h.notSelf q (hmem hql) hmoved.2
      · refine ⟨hno q hql hqp hqm, ?_⟩
        rintro rfl
        exact hpar hqp
    rw [he.state, if_neg hqd.2]
    exact hqd.1

theorem Waiting.exited {s' : Sys}
    (hd : s.thread d = .user) (he : ExitStep d init s s' procs) (hf : Family s'.procs procs kids' init) (hq : Quiet init s d) :
    Waiting s' procs kids' init := by
  refine ⟨hf, fun a ha => ?_, fun p hp hg => ?_, fun p hp => ?_, fun q hq => ?_, he.waits h hq⟩
  · have hgone := h.fresh a ((he.live a).symm.trans ha)
    rw [he.thread, exitThread, hgone]
    split_ifs <;> rfl
  · rw [he.thread, exitThread] at hg
    rw [he.state]
    by_cases hpd : p = d
    · rw [if_pos hpd] at hg
      exact absurd rfl hg
    · rw [if_neg hpd] at hg ⊢
      refine h.alive p hp fun hgone => ?_
      rw [hgone] at hg
      split_ifs at hg <;> exact hg rfl
  · rw [he.waitTask, he.thread, exitThread, h.task p hp]
    by_cases hpd : p = d
    · rw [if_pos hpd, if_neg (hpd ▸ h.notSelf p hp), hpd, hd]
      rfl
    · rw [if_neg hpd]
      split_ifs
      · cases s.thread p <;> rfl
      · rfl
  · rw [he.parent q hq]
    split_ifs with hmoved
    · intro hself
      have := h.family.initParent
      rw [Option.some.inj hself, hmoved.2] at this
      cases this
    · exact h.notSelf q hq

end

/-! ### Runs -/

/-- The runs whose steps satisfy `ok`. -/
inductive SysRun (ok : Sys → Op → Prop) (s₀ : Sys) : Sys → Prop
  | start : SysRun ok s₀ s₀
  | step {s s' : Sys} {op : Op} (hrun : SysRun ok s₀ s) (hen : s.Enabled op) (hok : ok s op)
      (h : s.step op = some s') : SysRun ok s₀ s'

/-- The exits of a run are quiet. -/
def QuietStep (init : Addr) (s : Sys) : Op → Prop
  | .exit d _ => Quiet init s d
  | _ => True

theorem Waiting.step {op : Op} (h : Waiting s procs kids init) (hen : s.Enabled op) (hq : QuietStep init s op) :
    ∃ s' procs' kids', s.step op = some s' ∧ Waiting s' procs' kids' init := by
  have hmem : ∀ {p}, s.procs.live p = true → p ∈ procs := (h.family.listed.live _).mpr
  cases op with
  | fork p mem pml4Phys thread =>
    obtain ⟨hp, hu, hfresh⟩ := hen
    have halive := h.alive p (hmem hp) (by rw [hu]; nofun)
    obtain ⟨procs', kids', hf, hl⟩ := h.family.forkProcess (hmem hp) halive hfresh pml4Phys thread
    refine ⟨_, procs', kids', rfl, h.launched ?_ hl hf⟩
    rintro x ⟨⟩
    exact hu
  | spawn mem pml4Phys image thread =>
    obtain ⟨procs', kids', hf, hl⟩ := h.family.spawnProcess hen pml4Phys image thread
    have hpar : ∀ p, none = some p → s.thread p = .user := nofun
    exact ⟨_, procs', kids', rfl, h.launched hpar hl hf⟩
  | exit p status =>
    obtain ⟨s', kids', hs', hf, he⟩ := h.exitStep (hmem hen.1) status
    exact ⟨s', procs, kids', hs', h.exited hen.2 he hf hq⟩
  | waitpid p target noHang =>
    have hu := hen.2
    exact h.round (hmem hen.1) (by rw [hu]; nofun) (by rw [hu]; nofun) target noHang
  | resume p =>
    obtain ⟨hp, target, ht⟩ := hen
    dsimp only [Sys.step]
    rw [ht]
    exact h.round (hmem hp) (by rw [ht]; nofun) (by rw [ht]; nofun) target false
  | reapInit =>
    obtain ⟨s', procs', kids', hs', hf, hsw⟩ := h.family.reapZombiesOfInit
    refine ⟨{ s with procs := s' }, procs', kids', ?_, h.removed hf (fun q hq => ((hsw.mem q).mp hq).1)
      (fun q hq hz => (hsw.mem q).mpr ⟨hq, fun hsz => hz hsz.2⟩) fun q _ => rest_field (hsw.rest q) Process.view fun _ => rfl⟩
    dsimp only [Sys.step]
    rw [hs']
    rfl

theorem boot_procs (a : Addr) (pml4Phys brkBase : ℕ) (t : Addr) (s₀ : State) :
    (Sys.boot a pml4Phys brkBase t s₀).procs = (boot a pml4Phys s₀).modify a fun p =>
      { p with brk := brkBase, brkBase := brkBase, threadList := some t } := by
  unfold Sys.boot spawnProcess
  rw [processCreate_boot]
  rfl

theorem boot_thread (a : Addr) (pml4Phys brkBase : ℕ) (t : Addr) (s₀ : State) :
    (Sys.boot a pml4Phys brkBase t s₀).thread = update (fun _ => .gone) a .user := by
  unfold Sys.boot spawnProcess
  rw [processCreate_boot]
  rfl

theorem Waiting.boot (a : Addr) (pml4Phys brkBase : ℕ) (t : Addr) (h₀ : ∀ x, s₀.live x = false) :
    Waiting (Sys.boot a pml4Phys brkBase t s₀) [a] (fun _ => []) a := by
  have hf : Family (Sys.boot a pml4Phys brkBase t s₀).procs [a] (fun _ => []) a := by
    rw [boot_procs]
    exact (family_boot a pml4Phys h₀).modify a (keeps_image brkBase t)
  have hrecord := (boot_created a pml4Phys s₀).record
  refine ⟨hf, fun x hx => ?_, fun p hp _ => ?_, fun p hp => ?_, fun q hq => ?_, fun p target _ hb => ?_⟩
  · rw [boot_thread]
    refine update_of_ne ?_ _ _
    rintro rfl
    exact Bool.noConfusion (((hf.listed.live x).mp List.mem_cons_self).symm.trans hx)
  · rw [List.mem_singleton.mp hp, boot_procs, proc_modify_self]
    have := congrArg Process.state hrecord
    rw [show ((Proc.boot a pml4Phys s₀).proc a).state = .alive from this]
    decide
  · rw [List.mem_singleton.mp hp, boot_procs, boot_thread, proc_modify_self, update_self]
    exact congrArg Process.waitTask hrecord
  · rw [List.mem_singleton.mp hq, hf.initParent]
    nofun
  · rw [boot_thread, update_apply] at hb
    split_ifs at hb

theorem Waiting.run {brkBase : ℕ} {t : Addr} (h₀ : ∀ x, s₀.live x = false)
    (hrun : SysRun (QuietStep a) (Sys.boot a pml4Phys brkBase t s₀) s) : ∃ procs kids, Waiting s procs kids a := by
  induction hrun with
  | start => exact ⟨[a], fun _ => [], Waiting.boot a pml4Phys brkBase t h₀⟩
  | step _ hen hok hs ih =>
    obtain ⟨procs, kids, h⟩ := ih
    obtain ⟨s', procs', kids', hs', h'⟩ := h.step hen hok
    obtain rfl := Option.some.inj (hs.symm.trans hs')
    exact ⟨procs', kids', h'⟩

/-- While every exit is quiet, a process that is blocked in `sys_waitpid` has something to wait for; an
exit that is not quiet breaks this. -/
theorem wait_has_child {a : Addr} {pml4Phys brkBase : ℕ} {t : Addr} {s₀ : State} (h₀ : ∀ x, s₀.live x = false)
    (hrun : SysRun (QuietStep a) (Sys.boot a pml4Phys brkBase t s₀) s) :
    WaitsForChild s ∧ ∀ d status, s.Enabled (.exit d status) →
      ∃ s', s.step (.exit d status) = some s' ∧ (WaitsForChild s' ↔ Quiet a s d) := by
  obtain ⟨procs, kids, h⟩ := Waiting.run h₀ hrun
  refine ⟨h.waits, fun d status hen => ?_⟩
  obtain ⟨s', -, hs', -, he⟩ := h.exitStep ((h.family.listed.live d).mpr hen.1) status
  exact ⟨s', hs', fun hw => he.quiet h hen.2 hw, fun hq => he.waits h hq⟩

theorem runOps_run {ok : Sys → Op → Prop} {s₀ s' : Sys} {ops : List Op} (hok : ∀ op ∈ ops, ∀ s, ok s op)
    (hrun : SysRun ok s₀ s) (h : runOps ops s = some s') : SysRun ok s₀ s' := by
  induction ops generalizing s with
  | nil =>
    cases h
    exact hrun
  | cons op ops ih =>
    unfold runOps at h
    split_ifs at h with hen
    obtain ⟨s1, hs1, h1⟩ := Option.bind_eq_some_iff.mp h
    exact ih (fun o ho => hok o (List.mem_cons_of_mem _ ho)) (.step hrun hen (hok op List.mem_cons_self s) hs1) h1

/-- Init has a child and waits for any. -/
def initWaits : List Op := [.fork 1 (some 2) 0 (some 9), .waitpid 1 (-1) false]

/-- That child forks a process, which forks another; both exit, the youngest first. -/
def orphanZombie : List Op :=
  initWaits ++ [.fork 2 (some 3) 0 (some 9), .fork 3 (some 4) 0 (some 9), .exit 4 0, .exit 3 0]

theorem wait_has_child_init :
    ∃ s, runOps initWaits (Sys.boot 1 0 0 9 noProcesses) = some s ∧ s.thread 1 = .blocked (-1) ∧ WaitsForChild s := by
  have hrun : (runOps initWaits (Sys.boot 1 0 0 9 noProcesses)).map (fun s => s.thread 1) = some (.blocked (-1)) := by
    decide +kernel
  obtain ⟨s, hs, hthread⟩ := Option.map_eq_some_iff.mp hrun
  have hok : ∀ op ∈ initWaits, ∀ s, QuietStep 1 s op := by
    intro op hop s
    rcases List.mem_pair.mp hop with rfl | rfl <;> trivial
  exact ⟨s, hs, hthread, (wait_has_child (fun _ => rfl) (runOps_run hok .start hs)).1⟩

theorem wait_for_zombie :
    ∃ s, SysRun (fun _ _ => True) (Sys.boot 1 0 0 9 noProcesses) s ∧ ¬WaitsForChild s := by
  have hrun : (runOps orphanZombie (Sys.boot 1 0 0 9 noProcesses)).map (fun s =>
      (s.thread 1, s.procs.live 1, s.procs.live 4, (s.procs.proc 4).parent, (s.procs.proc 4).state)) =
      some (.blocked (-1), true, true, some 1, .zombie) := by decide +kernel
  obtain ⟨s, hs, hfacts⟩ := Option.map_eq_some_iff.mp hrun
  simp only [Prod.mk.injEq] at hfacts
  obtain ⟨hthread, hlive, hchild, hparent, hstate⟩ := hfacts
  refine ⟨s, runOps_run (fun _ _ _ => trivial) .start hs, fun hw => ?_⟩
  exact (hw 1 (-1) hlive hthread).2 4 hchild hparent (childMatches_any _ (by decide) 4) hstate

end Tori.Proc
