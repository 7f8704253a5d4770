import Tori.Proofs.SchedQueue

/-! A task whose entry function has returned stays dead and never runs again. `sys_exit` marks its task dead as
well, but calls `block()`, which marks it blocked: the task can be woken. -/

namespace Tori.Sched

open Function

variable {s s' s₂ : State} {q q' : List Addr} {a t c x boot : Addr} {e : Call}

theorem Queue.unique (h : Queue s q) (h' : Queue s q') : q = q' :=
  h.linked.unique h'.linked (h.head.symm.trans h'.head)

theorem Aside.currentTask (h : Aside s s') : currentTask s' = currentTask s := by
  unfold Sched.currentTask
  rw [h.lapicId, h.currentTasks]

theorem wake_aside (t : Addr) (s : State) : Aside s (wake t s) := by
  unfold wake
  split_ifs
  · exact (setState_aside t .ready s).trans (push_aside t (setState t .ready s))
  · exact ⟨rfl, rfl, rfl, rfl, rfl⟩

/-- What `sys_exit` has done when it marks its task dead. -/
def wakeParent (waitTask : Option Addr) (s : State) : State := waitTask.elim s (wake · s)

theorem wakeParent_aside (waitTask : Option Addr) (s : State) : Aside s (wakeParent waitTask s) := by
  cases waitTask with
  | none => exact ⟨rfl, rfl, rfl, rfl, rfl⟩
  | some parent => exact wake_aside parent s

/-- `block()` overwrites the state that `sys_exit` has written. -/
theorem sysExit_eq (hcur : currentTask s = some c) (waitTask : Option Addr) :
    sysExit waitTask s = block (wakeParent waitTask s) := by
  have hcur' : currentTask (wakeParent waitTask s) = some c := (wakeParent_aside waitTask s).currentTask.trans hcur
  have hdead : currentTask (setState c .dead (wakeParent waitTask s)) = some c :=
    (setState_aside c .dead _).currentTask.trans hcur'
  have hset : setState c .blocked (setState c .dead (wakeParent waitTask s)) =
      setState c .blocked (wakeParent waitTask s) := by
    simp [setState, State.modify]
  have hexit : sysExit waitTask s = block (setState c .dead (wakeParent waitTask s)) := by
    unfold sysExit
    rw [hcur]
    cases waitTask <;> rfl
  rw [hexit, block, block, hdead, hcur']
  dsimp only
  rw [hset]

/-! ### The invariant along calls -/

def WakesOk (s : State) : Call → Prop
  | .op op => WakeOk s op
  | .sysExit waitTask => ∀ parent, waitTask = some parent → WakeOk s (.wake parent)

theorem Call.Enabled.allowed {op : Op} (h : (Call.op op).Enabled s) : Allowed s op := by
  cases op with
  | wake => exact h
  | schedDoPreempt => trivial
  | taskFinished => trivial
  | createTask | schedEnqueue | yield | block => exact h.2

theorem Inv.wakeParent (h : Inv boot s q c) {waitTask : Option Addr} (hop : (Call.sysExit waitTask).Enabled s)
    (hok : WakesOk s (.sysExit waitTask)) : ∃ q', Inv boot (wakeParent waitTask s) q' c := by
  cases waitTask with
  | none => exact ⟨q, h⟩
  | some parent => exact h.wake (hop.2 parent rfl) (hok parent rfl)

theorem Inv.call (h : Inv boot s q c) (hop : e.Enabled s) (hok : WakesOk s e) :
    ∃ q' c', Inv boot (e.exec s) q' c' := by
  cases e with
  | op op => exact h.step hop.allowed hok
  | sysExit waitTask =>
    obtain ⟨q', h'⟩ := h.wakeParent hop hok
    rw [Call.exec, sysExit_eq h.currentTask]
    exact h'.step (show Allowed _ .block from trivial) trivial

theorem currentTask_some (h : currentTask s = some c) : s.lapicId < maxCpus := by
  unfold currentTask at h
  split_ifs at h with hl
  exact Nat.not_le.mp hl

theorem Call.Enabled.lapic (hop : e.Enabled s) (hl : (e.exec s).lapicId < maxCpus) : s.lapicId < maxCpus := by
  have hawake : Awake s → s.lapicId < maxCpus := by
    rintro ⟨_, hcur, -⟩
    exact currentTask_some hcur
  cases e with
  | sysExit => exact hawake hop.1
  | op op =>
    cases op with
    | wake t => exact (wake_aside t s).lapicId ▸ hl
    | schedDoPreempt =>
      by_contra hge
      rw [Call.exec, Sched.exec, schedDoPreempt, if_pos (Nat.not_lt.mp hge)] at hl
      exact hge hl
    | createTask | schedEnqueue | yield | block | taskFinished => exact hawake hop.1

theorem Calls.inv (h : Calls WakesOk s₂ s) (h₂ : s₂.lapicId < maxCpus → ∃ q c, Inv boot s₂ q c)
    (hl : s.lapicId < maxCpus) : ∃ q c, Inv boot s q c := by
  induction h with
  | start => exact h₂ hl
  | step _ hop hok ih =>
    obtain ⟨q, c, h⟩ := ih (hop.lapic hl)
    exact h.call hop hok

/-! ### Tasks that are gone -/

/-- `t` has finished, and nothing can make it current. -/
structure Gone (t : Addr) (s : State) : Prop where
  dead : (s.task t).state = .dead
  out : ∀ q, Queue s q → t ∉ q
  mem : t ∈ s.allTasks
  notIdle : s.idleTask ≠ some t

/-- `t` is still gone, and has not become current. -/
def StaysGone (t : Addr) (s s' : State) : Prop :=
  Gone t s' ∧ (currentTask s' = some t → currentTask s = some t)

section

variable (hg : Gone t s)
include hg

theorem Gone.switched (h : Placed s q c) : StaysGone t s (scheduleInternal s) := by
  rcases h.scheduleInternal_cases with ⟨-, -, hsame⟩ | ⟨x, q', hfrom, hsw⟩
  · rw [hsame]
    exact ⟨hg, id⟩
  · have htq : t ∉ q := hg.out q h.queue
    have htx : t ≠ x := by
      rintro rfl
      rcases hfrom with rfl | ⟨-, -, hi⟩
      · exact htq List.mem_cons_self
      · exact hg.notIdle hi
    refine ⟨⟨?_, fun q'' hq'' hm => ?_, hsw.allTasks ▸ hg.mem, hsw.idleTask ▸ hg.notIdle⟩, fun hcur => ?_⟩
    · rw [hsw.state, if_neg htx]
      exact hg.dead
    · rw [hq''.unique hsw.queue] at hm
      rcases hfrom with rfl | ⟨-, rfl, -⟩
      · exact htq (List.mem_cons_of_mem _ hm)
      · cases hm
    · rw [hsw.currentTask] at hcur
      exact absurd (Option.some.inj hcur).symm htx

/-- The operations that end in `schedule_internal`, which finds the queue `q'`. -/
theorem Gone.schedule (hq : Queue s q) (ha : Aside s s') (h' : Placed s' q' c)
    (hstate : (s'.task t).state = (s.task t).state) (hsub : t ∈ q' → t ∈ q) : StaysGone t s (scheduleInternal s') := by
  have hg' : Gone t s' := by
    refine ⟨hstate.trans hg.dead, fun q'' hq'' hm => hg.out q hq (hsub ?_), ha.allTasks ▸ hg.mem, ha.idleTask ▸ hg.notIdle⟩
    rwa [hq''.unique h'.queue] at hm
  obtain ⟨hgone, hcur⟩ := hg'.switched h'
  exact ⟨hgone, fun hc => ha.currentTask ▸ hcur hc⟩

theorem Gone.joins (hq : Queue s q) (hj : Joins x s s') (hxq : x ∉ q) (htx : t ≠ x) : StaysGone t s s' := by
  refine ⟨⟨?_, fun q' hq' hm => ?_, (hj.allTasks t).mpr (Or.inl hg.mem), hj.idleTask ▸ hg.notIdle⟩, fun hcur => ?_⟩
  · rw [hj.state, if_neg htx]
    exact hg.dead
  · rw [hq'.unique (hj.queue q hq hxq), List.mem_append, List.mem_singleton] at hm
    exact hm.elim (hg.out q hq) htx
  · unfold currentTask at hcur ⊢
    rwa [hj.lapicId, hj.currentTasks] at hcur

section

variable (h : Inv boot s q c)
include h

theorem Gone.stop (htc : t ≠ c) {st : TaskState} (hst : st = .blocked ∨ st = .dead) :
    StaysGone t s (scheduleInternal (setState c st s)) := by
  refine hg.schedule h.queue (setState_aside c st s) (h.toHolds.stop hst).toPlaced ?_ id
  rw [setState_state, if_neg htc]

theorem Gone.fresh (hj : Joins x s s') (hx : x ∉ s.allTasks) : StaysGone t s s' :=
  hg.joins h.queue hj (fun hxq => hx (h.sub x hxq)) fun he => hx (he ▸ hg.mem)

theorem Gone.wake (hx : x ∈ s.allTasks) (hok : WakeOk s (.wake x)) : StaysGone t s (wake x s) := by
  by_cases hb : (s.task x).state = .blocked
  · refine hg.joins h.queue (wake_joins hx hb) (h.blocked_out hb hok).1 fun he => ?_
    rw [← he, hg.dead] at hb
    cases hb
  · unfold Sched.wake
    rw [if_neg hb]
    exact ⟨hg, id⟩

theorem Gone.step {op : Op} (hop : (Call.op op).Enabled s) (hok : WakeOk s op) : StaysGone t s (exec op s) := by
  have hne : (s.task c).state ≠ .dead → t ≠ c := fun hc he => hc (he ▸ hg.dead)
  have hawake : Awake s → t ≠ c := by
    rintro ⟨d, hd, halive⟩
    rw [h.currentTask, Option.some_inj] at hd
    exact hne (hd ▸ halive)
  have hpush : t ≠ c → t ∈ q ++ [c] → t ∈ q := fun htc hm => by simpa [htc] using hm
  cases op with
  | createTask mem stack =>
    dsimp only [exec]
    rcases createTaskInternal_cases mem stack s with hc | ⟨x, s', hx, hc, hj⟩
    · rw [hc]
      exact ⟨hg, id⟩
    · rw [hc]
      exact hg.fresh h hj (hop.2 x hx)
  | schedEnqueue task => exact hg.fresh h (schedEnqueue_fresh task s) hop.2
  | yield =>
    dsimp only [exec, yield]
    rw [h.currentTask]
    exact hg.schedule h.queue (push_aside c s) h.toHolds.requeue.toPlaced (push_state c t s) (hpush (hawake hop.1))
  | block =>
    dsimp only [exec, block]
    rw [h.currentTask]
    exact hg.stop h (hawake hop.1) (Or.inl rfl)
  | wake x => exact hg.wake h hop hok
  | schedDoPreempt =>
    obtain ⟨s₁, h₁, ha, htask, hpre⟩ := h.preempt_eq
    dsimp only [exec]
    rw [hpre]
    split_ifs with hrun
    · have htc : t ≠ c := hne (by rw [← htask, hrun]; decide)
      refine hg.schedule h.queue (ha.trans ((setState_aside c .ready s₁).trans (push_aside c _)))
        h₁.toHolds.ready.requeue.toPlaced ?_ (hpush htc)
      rw [push_state, setState_state, if_neg htc, htask]
    · exact hg.schedule h.queue ha h₁.toPlaced (by rw [htask]) id
  | taskFinished =>
    dsimp only [exec, taskFinished]
    rw [h.currentTask]
    exact hg.stop h (hawake hop.1) (Or.inr rfl)

theorem Gone.call (hop : e.Enabled s) (hok : WakesOk s e) : StaysGone t s (e.exec s) := by
  cases e with
  | op op => exact hg.step h hop hok
  | sysExit waitTask =>
    obtain ⟨d, hd, halive⟩ := hop.1
    rw [h.currentTask, Option.some_inj] at hd
    have htc : t ≠ c := fun he => halive (hd ▸ he ▸ hg.dead)
    obtain ⟨q', h'⟩ := h.wakeParent hop hok
    have hw : StaysGone t s (wakeParent waitTask s) := by
      cases waitTask with
      | none => exact ⟨hg, id⟩
      | some parent => exact hg.wake h (hop.2 parent rfl) (hok parent rfl)
    have hb := hw.1.stop h' htc (Or.inl rfl)
    rw [Call.exec, sysExit_eq h.currentTask, block, h'.currentTask]
    exact ⟨hb.1, fun hc => hw.2 (hb.2 hc)⟩

theorem Gone.calls (hrun : Calls WakesOk s s') : Gone t s' ∧ ∃ q c, Inv boot s' q c := by
  induction hrun with
  | start => exact ⟨hg, q, c, h⟩
  | step _ hop hok ih =>
    obtain ⟨hg, q, c, h⟩ := ih
    exact ⟨(hg.call h hop hok).1, h.call hop hok⟩

end

end

/-- The end of a kernel task. -/
theorem Inv.finished (h : Inv boot s q c) (hidle : currentTask s ≠ s.idleTask) : Gone c (exec .taskFinished s) := by
  have hp : Placed (setState c .dead s) q c := (h.toHolds.stop (Or.inr rfl)).toPlaced
  have hg : Gone c (setState c .dead s) := by
    refine ⟨?_, fun q' hq' => ?_, h.curMem, fun hi => hidle ?_⟩
    · rw [setState_state, if_pos rfl]
    · rw [hq'.unique hp.queue]
      exact h.out
    · exact h.currentTask.trans hi.symm
  rw [exec, taskFinished, h.currentTask]
  exact (hg.switched hp).1

theorem Inv.block_state (h : Inv boot s q c) : ((block s).task c).state ≠ .dead := by
  have hset : ((setState c .blocked s).task c).state = .blocked := by rw [setState_state, if_pos rfl]
  rw [block, h.currentTask]
  dsimp only
  rcases (h.toHolds.stop (Or.inl rfl)).scheduleInternal_cases with ⟨-, -, hsame⟩ | ⟨x, q', -, hsw⟩
  · rw [hsame, hset]
    decide
  · rw [hsw.state, hset]
    split_ifs <;> decide

theorem Launch.calls_inv {lapicId : ℕ} {s₁ : State} (h : Launch boot lapicId s₁ q) (hstart : startScheduler s₁ = some s₂)
    (hrun : Calls WakesOk s₂ s) (hcur : currentTask s = some c) : ∃ q, Inv boot s q c := by
  have h₂ : s₂.lapicId < maxCpus → ∃ q c, Inv boot s₂ q c := fun hl => by
    refine h.start ?_ hstart
    obtain ⟨x, q', s', -, hs, rfl⟩ := startScheduler_some h.queue hstart
    rw [← h.lapic, ← hs.lapicId]
    by_contra hge
    rw [setCurrentTask, if_neg hge] at hl
    exact hge hl
  obtain ⟨q, d, hinv⟩ := hrun.inv h₂ (currentTask_some hcur)
  obtain rfl : d = c := by simpa [hinv.currentTask] using hcur
  exact ⟨q, hinv⟩

/-- The current task ends by `e`. It is dead from then on, never queued and never made current again, if and only if
its entry function has returned. -/
theorem stays_dead_iff {bsp : Addr} {idle : Option Addr} {stack : Bool} {s₀ s₁ : State} (hidle : idle ≠ some bsp)
    (hprep : Prepared (initTaskSystem s₀.lapicId bsp idle stack s₀) s₁) (hstart : startScheduler s₁ = some s₂)
    (hrun : Calls WakesOk s₂ s) (hcur : currentTask s = some c) (hop : e.Enabled s) (hok : WakesOk s e)
    (hexit : e = .op .taskFinished ∨ ∃ waitTask, e = .sysExit waitTask) :
    (∀ s', Calls WakesOk (e.exec s) s' → (s'.task c).state = .dead ∧ (∀ q, Queue s' q → c ∉ q) ∧
      ∀ e' : Call, e'.Enabled s' → WakesOk s' e' → currentTask (e'.exec s') = some c → currentTask s' = some c) ↔
    e = .op .taskFinished := by
  obtain ⟨q₁, hlaunch⟩ := Launch.prepared (launch_init bsp idle stack s₀ hidle) hprep
  obtain ⟨q, h⟩ := hlaunch.calls_inv hstart hrun hcur
  constructor
  · intro hstays
    rcases hexit with rfl | ⟨waitTask, rfl⟩
    · rfl
    · obtain ⟨q', h'⟩ := h.wakeParent hop hok
      have hdead := (hstays _ .start).1
      rw [Call.exec, sysExit_eq hcur] at hdead
      exact absurd hdead h'.block_state
  · rintro rfl s' hrun'
    obtain ⟨q', c', h'⟩ := h.call hop hok
    obtain ⟨hg, q'', c'', h''⟩ := (h.finished hop.2).calls h' hrun'
    exact ⟨hg.dead, hg.out, fun e' hop' hok' => (hg.call h'' hop' hok').2⟩

/-- The kernel's main task gets the CPU and returns. -/
theorem stays_dead_main : ∃ s₂, startScheduler withIdle = some s₂ ∧ currentTask (exec .schedDoPreempt s₂) = some 3 ∧
    ∀ s', Calls WakesOk (exec .taskFinished (exec .schedDoPreempt s₂)) s' → (s'.task 3).state = .dead := by
  have hprep : Prepared (initTaskSystem (coldState 0).lapicId 1 (some 2) true (coldState 0)) withIdle :=
    .create .init fun a ha => by
      cases ha
      decide
  have hrun : (startScheduler withIdle).map (fun s₂ => (currentTask (exec .schedDoPreempt s₂),
      ((exec .schedDoPreempt s₂).task 3).state, (exec .schedDoPreempt s₂).idleTask)) =
      some (some 3, .running, some 2) := by decide +kernel
  obtain ⟨s₂, hs₂, hfacts⟩ := Option.map_eq_some_iff.mp hrun
  simp only [Prod.mk.injEq] at hfacts
  obtain ⟨hcur, hstate, hidle⟩ := hfacts
  have hcalls : Calls WakesOk s₂ ((Call.op .schedDoPreempt).exec s₂) := .step .start trivial trivial
  have hop : (Call.op .taskFinished).Enabled (exec .schedDoPreempt s₂) :=
    ⟨⟨3, hcur, by rw [hstate]; decide⟩, by rw [hcur, hidle]; decide⟩
  refine ⟨s₂, hs₂, hcur, fun s' hs' => ?_⟩
  exact ((stays_dead_iff (by decide) hprep hs₂ hcalls hcur hop trivial (Or.inl rfl)).mpr rfl s' hs').1

/-- A user thread 4 besides the tasks of `withIdle`. -/
def withThread : State := exec (.schedEnqueue 4) withIdle

/-- A timer interrupt. -/
def turn : State → State := exec .schedDoPreempt

/-- The thread runs and calls `sys_exit`; it is woken and runs again. -/
theorem exited_task_runs : ∃ s₂ s s', startScheduler withThread = some s₂ ∧ Calls WakesOk s₂ s ∧
    currentTask s = some 4 ∧ (Call.sysExit none).Enabled s ∧ Calls WakesOk (sysExit none s) s' ∧
    currentTask s' = some 4 ∧ (s'.task 4).state = .running := by
  have hrun : (startScheduler withThread).map (fun s₂ => (currentTask (turn (turn s₂)), ((turn (turn s₂)).task 4).state,
      (sysExit none (turn (turn s₂))).allTasks, (sysExit none (turn (turn s₂))).idleTask)) =
      some (some 4, .running, [1, 2, 3, 4], some 2) := by decide +kernel
  have hback : (startScheduler withThread).map (fun s₂ =>
      let s' := turn (turn (wake 4 (sysExit none (turn (turn s₂)))))
      (currentTask s', (s'.task 4).state)) = some (some 4, .running) := by decide +kernel
  obtain ⟨s₂, hs₂, hfacts⟩ := Option.map_eq_some_iff.mp hrun
  rw [hs₂, Option.map_some, Option.some_inj] at hback
  simp only [Prod.mk.injEq] at hfacts hback
  obtain ⟨hcur, hstate, hall, hidle⟩ := hfacts
  have preempt : ∀ {s₀ s}, Calls WakesOk s₀ s → Calls WakesOk s₀ (turn s) := fun h =>
    @Calls.step _ _ _ (.op .schedDoPreempt) h trivial trivial
  have hwake : Calls WakesOk (sysExit none (turn (turn s₂))) (wake 4 (sysExit none (turn (turn s₂)))) := by
    refine @Calls.step _ _ _ (.op (.wake 4)) .start ?_ fun hi => ?_
    · change 4 ∈ (sysExit none (turn (turn s₂))).allTasks
      rw [hall]
      decide
    · rw [hidle] at hi
      cases hi
  refine ⟨s₂, turn (turn s₂), _, hs₂, preempt (preempt .start), hcur, ⟨⟨4, hcur, by rw [hstate]; decide⟩, ?_⟩,
    preempt (preempt hwake), hback⟩
  rintro parent ⟨⟩

end Tori.Sched
