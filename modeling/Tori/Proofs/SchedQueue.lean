import Tori.Spec.Sched

/-! The ready queue is a first-in first-out list that holds every task that could run, except the current
one. -/

namespace Tori.Sched

open DList Function

variable {s s' : State} {q : List Addr} {a t c : Addr}

variable {x : Addr} {s₂ : State}

@[simp] theorem task_modify (a b : Addr) (f : Task → Task) (s : State) :
    (s.modify a f).task b = if b = a then f (s.task a) else s.task b :=
  update_apply _ _ _ _

/-! ### The queue -/

/-- `q` is what the links of the ready queue hold. -/
structure Queue (s : State) (q : List Addr) : Prop where
  linked : Linked (fun t => (s.task t).readyNext) (fun t => (s.task t).readyPrev) q
  head : s.head = q.head?
  tail : s.tail = q.getLast?
  order : s.pushes = s.pops ++ q

/-- What the operations on the queue leave alone. -/
structure Aside (s s' : State) : Prop where
  lapicId : s'.lapicId = s.lapicId
  currentTasks : s'.currentTasks = s.currentTasks
  idleTask : s'.idleTask = s.idleTask
  schedulerActive : s'.schedulerActive = s.schedulerActive
  allTasks : s'.allTasks = s.allTasks

theorem Queue.congr (h : Queue s q) (hn : ∀ x, (s'.task x).readyNext = (s.task x).readyNext)
    (hp : ∀ x, (s'.task x).readyPrev = (s.task x).readyPrev) (hh : s'.head = s.head) (ht : s'.tail = s.tail)
    (hpush : s'.pushes = s.pushes) (hpop : s'.pops = s.pops) : Queue s' q :=
  ⟨h.linked.congr (fun x _ => hn x) fun x _ => hp x, hh.trans h.head, ht.trans h.tail, by rw [hpush, hpop, h.order]⟩

/-- What `ready_queue_push` does to each task. -/
theorem push_task (t x : Addr) (s : State) : (readyQueuePush t s).task x = { s.task x with
    readyNext := if s.tail = some x then some t else if x = t then none else (s.task x).readyNext
    readyPrev := if x = t then s.tail else (s.task x).readyPrev } := by
  unfold readyQueuePush
  cases s.tail with
  | none =>
    rw [task_modify]
    split_ifs <;> simp_all
  | some b =>
    rw [task_modify, task_modify, task_modify]
    split_ifs <;> simp_all

theorem push_state (t x : Addr) (s : State) : ((readyQueuePush t s).task x).state = (s.task x).state := by
  rw [push_task]

theorem push_aside (t : Addr) (s : State) : Aside s (readyQueuePush t s) := by
  unfold readyQueuePush
  cases s.tail <;> exact ⟨rfl, rfl, rfl, rfl, rfl⟩

theorem push_lists (t : Addr) (s : State) : (readyQueuePush t s).tail = some t ∧
    (readyQueuePush t s).head = (if s.tail = none then some t else s.head) ∧
    (readyQueuePush t s).pushes = s.pushes ++ [t] ∧ (readyQueuePush t s).pops = s.pops := by
  unfold readyQueuePush
  cases s.tail <;> exact ⟨rfl, rfl, rfl, rfl⟩

theorem Queue.push (h : Queue s q) (ht : t ∉ q) : Queue (readyQueuePush t s) (q ++ [t]) := by
  obtain ⟨htail, hhead, hpush, hpop⟩ := push_lists t s
  have hne : ∀ {y}, y ∈ q → y ≠ t := fun hy => ne_of_mem_of_not_mem hy ht
  have htn : q.getLast? ≠ some t := fun he => ht (List.mem_of_mem_getLast? he)
  refine ⟨h.linked.snoc ht (fun y hy => ?_) (fun y hy hl => ?_) ?_ (fun y hy => ?_) ?_, ?_, ?_, ?_⟩
  · rw [push_task, h.tail, if_pos hy]
  · rw [push_task, h.tail, if_neg hl, if_neg (hne hy)]
  · rw [push_task, h.tail, if_neg htn, if_pos rfl]
  · rw [push_task]
    exact if_neg (hne hy)
  · rw [push_task]
    exact (if_pos rfl).trans h.tail
  · rw [hhead, h.tail, h.head]
    cases q <;> simp
  · rw [htail, List.getLast?_concat]
  · rw [hpush, hpop, h.order, List.append_assoc]

theorem Queue.pop_nil (h : Queue s []) : readyQueuePop s = (none, s) := by
  unfold readyQueuePop
  rw [h.head]
  rfl

/-- What `ready_queue_pop` does to a queue that starts with `x`. -/
structure Popped (x : Addr) (q : List Addr) (s s' : State) : Prop where
  queue : Queue s' q
  aside : Aside s s'
  state : ∀ y, (s'.task y).state = (s.task y).state

theorem Queue.pop_cons (h : Queue s (x :: q)) :
    ∃ s', readyQueuePop s = (some x, s') ∧ Popped x q s s' := by
  have hnext : (s.task x).readyNext = q.head? := h.linked.next_eq [] x q rfl
  have hnd := List.nodup_cons.mp h.linked.nodup
  have hlink : Linked (fun t => (s.task t).readyNext) (fun t => (s.task t).readyPrev) ([] ++ x :: q) := h.linked
  unfold readyQueuePop
  rw [h.head, List.head?_cons]
  dsimp only
  rw [hnext]
  cases q with
  | nil =>
    refine ⟨_, rfl, ⟨Linked.nil, rfl, rfl, ?_⟩, ⟨rfl, rfl, rfl, rfl, rfl⟩, fun y => ?_⟩
    · rw [List.append_nil]
      exact h.order
    · dsimp only [List.head?_nil]
      rw [task_modify]
      split_ifs with hy
      · rw [hy]
      · rfl
  | cons z zs =>
    have hxz : x ≠ z := fun he => hnd.1 (he ▸ List.mem_cons_self)
    refine ⟨_, rfl, ⟨hlink.remove (fun y hy => (nomatch hy)) (fun y hy _ => ?_) (fun y hy => ?_) fun y hy hne => ?_, rfl,
      h.tail.trans List.getLast?_cons_cons, ?_⟩, ⟨rfl, rfl, rfl, rfl, rfl⟩, fun y => ?_⟩
    · have hyx : y ≠ x := ne_of_mem_of_not_mem hy hnd.1
      dsimp only [List.head?_cons]
      rw [task_modify, if_neg hyx, task_modify]
      split_ifs with hyz
      · rw [hyz]
      · rfl
    · cases hy
      dsimp only [List.head?_cons]
      rw [task_modify, if_neg (Ne.symm hxz), task_modify, if_pos rfl]
      rfl
    · have hyx : y ≠ x := ne_of_mem_of_not_mem hy hnd.1
      have hyz : y ≠ z := fun he => hne (he ▸ rfl)
      dsimp only [List.head?_cons]
      rw [task_modify, if_neg hyx, task_modify, if_neg hyz]
    · simp [State.modify, h.order]
    · dsimp only [List.head?_cons]
      rw [task_modify, task_modify, task_modify]
      split_ifs <;> simp_all

/-! ### Tasks that could run -/

/-- Neither blocked nor finished. -/
def Runnable (s : State) (t : Addr) : Prop := (s.task t).state ≠ .blocked ∧ (s.task t).state ≠ .dead

theorem setState_state (a x : Addr) (st : TaskState) (s : State) :
    ((setState a st s).task x).state = if x = a then st else (s.task x).state := by
  unfold setState
  rw [task_modify]
  split_ifs <;> rfl

theorem setState_aside (a : Addr) (st : TaskState) (s : State) : Aside s (setState a st s) := ⟨rfl, rfl, rfl, rfl, rfl⟩

theorem Queue.modify (h : Queue s q) (a : Addr) (f : Task → Task)
    (hf : ∀ t, (f t).readyNext = t.readyNext ∧ (f t).readyPrev = t.readyPrev) : Queue (s.modify a f) q := by
  refine h.congr (fun x => ?_) (fun x => ?_) rfl rfl rfl rfl
  all_goals
    rw [task_modify]
    split_ifs with hx
    · rw [hx]
      first | exact (hf _).1 | exact (hf _).2
    · rfl

theorem Queue.setState (h : Queue s q) (a : Addr) (st : TaskState) : Queue (setState a st s) q :=
  h.modify a _ fun _ => ⟨rfl, rfl⟩

theorem Aside.trans {s₁ s₃ : State} (h : Aside s₁ s₂) (h' : Aside s₂ s₃) : Aside s₁ s₃ :=
  ⟨h'.lapicId.trans h.lapicId, h'.currentTasks.trans h.currentTasks, h'.idleTask.trans h.idleTask,
    h'.schedulerActive.trans h.schedulerActive, h'.allTasks.trans h.allTasks⟩

/-- The CPU runs the task `c`, and the queue holds tasks that exist. -/
structure Placed (s : State) (q : List Addr) (c : Addr) : Prop where
  queue : Queue s q
  lapic : s.lapicId < maxCpus
  cur : s.currentTasks s.lapicId = some c
  curMem : c ∈ s.allTasks
  sub : ∀ t ∈ q, t ∈ s.allTasks
  idleMem : ∀ i, s.idleTask = some i → i ∈ s.allTasks
  active : s.schedulerActive = true

theorem Placed.congr (h : Placed s q c) (ha : Aside s s') {q' : List Addr} (hq : Queue s' q') (hsub : ∀ t ∈ q', t ∈ s.allTasks) :
    Placed s' q' c := by
  refine ⟨hq, ha.lapicId ▸ h.lapic, ?_, ha.allTasks ▸ h.curMem, fun t ht => ha.allTasks ▸ hsub t ht, fun i hi => ?_,
    ha.schedulerActive.trans h.active⟩
  · rw [ha.currentTasks, ha.lapicId]
    exact h.cur
  · rw [ha.allTasks]
    exact h.idleMem i (ha.idleTask ▸ hi)

theorem Placed.currentTask (h : Placed s q c) : currentTask s = some c := by
  unfold Sched.currentTask
  rw [if_neg (Nat.not_le.mpr h.lapic), h.cur]

/-- What could run is in the queue or current. When there is an idle task, none of them is blocked. -/
structure Holds (boot : Addr) (s : State) (q : List Addr) (c : Addr) : Prop extends Placed s q c where
  out : c ∉ q
  kept : ∀ t ∈ s.allTasks, t ≠ boot → Runnable s t → t ∈ q ∨ t = c
  idle : s.idleTask ≠ none → (s.task c).state ≠ .blocked ∧ ∀ t ∈ q, (s.task t).state ≠ .blocked

/-- Between two operations the current task runs, or has stopped for want of an idle task. -/
structure Inv (boot : Addr) (s : State) (q : List Addr) (c : Addr) : Prop extends Holds boot s q c where
  curState : (s.task c).state ≠ .ready

/-- Before `schedule_internal`: what could run is in the queue. -/
structure Parked (boot : Addr) (s : State) (q : List Addr) (c : Addr) : Prop extends Placed s q c where
  out : c ∈ q ∨ ¬Runnable s c
  kept : ∀ t ∈ s.allTasks, t ≠ boot → Runnable s t → t ∈ q
  idle : s.idleTask ≠ none → ∀ t ∈ q, (s.task t).state ≠ .blocked

variable {boot : Addr}

theorem setCurrentTask_eq (h : s.lapicId < maxCpus) (t : Option Addr) :
    setCurrentTask t s = { s with currentTasks := update s.currentTasks s.lapicId t } := by
  unfold setCurrentTask
  rw [if_pos h]

theorem Placed.runs {st : TaskState} (h : Placed s q c) (hx : x ∈ s.allTasks) :
    Placed (setCurrentTask (some x) (setState x st s)) q x := by
  have hlapic : (setState x st s).lapicId < maxCpus := h.lapic
  rw [setCurrentTask_eq hlapic]
  refine ⟨?_, h.lapic, update_self _ _ _, hx, h.sub, h.idleMem, h.active⟩
  exact (h.queue.setState x st).congr (fun _ => rfl) (fun _ => rfl) rfl rfl rfl rfl

/-- The CPU was given to `x`. -/
structure Switched (x : Addr) (q : List Addr) (s s' : State) : Prop extends Placed s' q x where
  state : ∀ y, (s'.task y).state = if y = x then .running else (s.task y).state
  allTasks : s'.allTasks = s.allTasks
  idleTask : s'.idleTask = s.idleTask

theorem Placed.switchTo (h : Placed s q c) (hx : x ∈ s.allTasks) : Switched x q s (switchTo (some c) x s) := by
  unfold Sched.switchTo
  split_ifs with hxc
  · obtain rfl := Option.some.inj hxc
    exact ⟨h.congr (setState_aside x .running s) (h.queue.setState x .running) h.sub,
      fun y => setState_state x y .running s, rfl, rfl⟩
  · have hlapic : (setState x .running s).lapicId < maxCpus := h.lapic
    refine ⟨h.runs hx, fun y => ?_, ?_, ?_⟩
    · rw [setCurrentTask_eq hlapic]
      exact setState_state x y .running s
    all_goals
      rw [setCurrentTask_eq hlapic]
      rfl

/-- `schedule_internal` changes nothing, or gives the CPU to the first task of the queue or, when the queue is
empty, to the idle task. -/
theorem Placed.scheduleInternal_cases (h : Placed s q c) :
    (q = [] ∧ ((s.task c).state = .running ∨ s.idleTask = none) ∧ scheduleInternal s = s) ∨
      ∃ x q', (q = x :: q' ∨ q = [] ∧ q' = [] ∧ s.idleTask = some x) ∧ Switched x q' s (scheduleInternal s) := by
  unfold Sched.scheduleInternal
  rw [h.currentTask]
  cases q with
  | cons x q =>
    obtain ⟨s1, hpop, hq, ha, hstate⟩ := h.queue.pop_cons
    have h1 : Placed s1 q c := h.congr ha hq fun t ht => h.sub t (List.mem_cons_of_mem _ ht)
    have hsw := h1.switchTo (ha.allTasks ▸ h.sub x List.mem_cons_self)
    rw [hpop]
    exact Or.inr ⟨x, q, Or.inl rfl, hsw.toPlaced, fun y => by rw [← hstate]; exact hsw.state y,
      hsw.allTasks.trans ha.allTasks, hsw.idleTask.trans ha.idleTask⟩
  | nil =>
    rw [h.queue.pop_nil]
    dsimp only
    split_ifs with hrun
    · obtain ⟨d, hd, hrun⟩ := hrun
      cases hd
      exact Or.inl ⟨rfl, Or.inl hrun, rfl⟩
    · cases hi : s.idleTask with
      | none => exact Or.inl ⟨rfl, Or.inr rfl, rfl⟩
      | some i => exact Or.inr ⟨i, [], Or.inr ⟨rfl, rfl, rfl⟩, h.switchTo (h.idleMem i hi)⟩

theorem Parked.scheduleInternal (h : Parked boot s q c) : ∃ q' c', Inv boot (scheduleInternal s) q' c' := by
  rcases h.scheduleInternal_cases with ⟨rfl, hrun, hsame⟩ | ⟨x, q', hfrom, hsw⟩
  · -- The current task has stopped, so there is no idle task.
    have hstop : ¬Runnable s c := h.out.resolve_left List.not_mem_nil
    have hi : s.idleTask = none := hrun.resolve_left fun hr => hstop ⟨by rw [hr]; decide, by rw [hr]; decide⟩
    rw [hsame]
    refine ⟨[], c, ⟨h.toPlaced, List.not_mem_nil, fun t ht htb htr => ?_, fun hne => absurd hi hne⟩, fun hready => ?_⟩
    · cases h.kept t ht htb htr
    · exact hstop ⟨by rw [hready]; decide, by rw [hready]; decide⟩
  · have hq : x ∉ q' ∧ ∀ t, t ∈ q → t ∈ q' ∨ t = x := by
      rcases hfrom with rfl | ⟨rfl, rfl, -⟩
      · exact ⟨(List.nodup_cons.mp h.queue.linked.nodup).1, fun t ht => (List.mem_cons.mp ht).symm⟩
      · exact ⟨List.not_mem_nil, fun t ht => by cases ht⟩
    have hsub : ∀ t ∈ q', t ∈ q := fun t ht => by
      rcases hfrom with rfl | ⟨rfl, rfl, -⟩
      · exact List.mem_cons_of_mem _ ht
      · cases ht
    refine ⟨q', x, ⟨hsw.toPlaced, hq.1, fun t ht htb htr => ?_, fun hi => ⟨?_, fun t ht => ?_⟩⟩, ?_⟩
    · by_cases htx : t = x
      · exact Or.inr htx
      · rw [Runnable, hsw.state, if_neg htx] at htr
        exact hq.2 t (h.kept t (hsw.allTasks ▸ ht) htb htr)
    · rw [hsw.state, if_pos rfl]
      decide
    · rw [hsw.state, if_neg (ne_of_mem_of_not_mem ht hq.1)]
      exact h.idle (hsw.idleTask ▸ hi) t (hsub t ht)
    · rw [hsw.state, if_pos rfl]
      decide

/-! ### The operations -/

theorem Holds.requeue (h : Holds boot s q c) : Parked boot (readyQueuePush c s) (q ++ [c]) c := by
  have ha := push_aside c s
  refine ⟨h.toPlaced.congr ha (h.queue.push h.out) fun t ht => ?_, Or.inl (by simp), fun t ht htb htr => ?_,
    fun hi t ht => ?_⟩
  · rcases List.mem_append.mp ht with ht | ht
    · exact h.sub t ht
    · exact List.mem_singleton.mp ht ▸ h.curMem
  · rw [ha.allTasks] at ht
    rw [Runnable, push_state] at htr
    rw [List.mem_append, List.mem_singleton]
    exact h.kept t ht htb htr
  · rw [push_state]
    rw [ha.idleTask] at hi
    obtain ⟨hc, hq⟩ := h.idle hi
    rcases List.mem_append.mp ht with ht | ht
    · exact hq t ht
    · exact List.mem_singleton.mp ht ▸ hc

theorem Holds.stop (h : Holds boot s q c) {st : TaskState} (hst : st = .blocked ∨ st = .dead) :
    Parked boot (setState c st s) q c := by
  have hc : ¬Runnable (setState c st s) c := by
    rw [Runnable, setState_state, if_pos rfl]
    rcases hst with rfl | rfl
    · exact fun hr => hr.1 rfl
    · exact fun hr => hr.2 rfl
  refine ⟨h.toPlaced.congr (setState_aside c st s) (h.queue.setState c st) h.sub, Or.inr hc, fun t ht htb htr => ?_,
    fun hi t ht => ?_⟩
  · have htc : t ≠ c := fun he => hc (he ▸ htr)
    rw [Runnable, setState_state, if_neg htc] at htr
    exact (h.kept t ht htb htr).resolve_right htc
  · rw [setState_state, if_neg (ne_of_mem_of_not_mem ht h.out)]
    exact (h.idle hi).2 t ht

/-- A current task that does not run has stopped. -/
theorem Inv.stopped (h : Inv boot s q c) (hrun : (s.task c).state ≠ .running) : Parked boot s q c := by
  have hc : ¬Runnable s c := by
    intro hr
    cases hst : (s.task c).state with
    | ready => exact h.curState hst
    | running => exact hrun hst
    | blocked => exact hr.1 hst
    | dead => exact hr.2 hst
  exact ⟨h.toPlaced, Or.inr hc, fun t ht htb htr => (h.kept t ht htb htr).resolve_right fun he => hc (he ▸ htr),
    fun hi => (h.idle hi).2⟩

/-- `t` is made ready and joins the queue; it may be a new task. -/
structure Joins (t : Addr) (s s' : State) : Prop where
  queue : ∀ q, Queue s q → t ∉ q → Queue s' (q ++ [t])
  state : ∀ y, (s'.task y).state = if y = t then .ready else (s.task y).state
  lapicId : s'.lapicId = s.lapicId
  currentTasks : s'.currentTasks = s.currentTasks
  idleTask : s'.idleTask = s.idleTask
  schedulerActive : s'.schedulerActive = s.schedulerActive
  allTasks : ∀ x, x ∈ s'.allTasks ↔ x ∈ s.allTasks ∨ x = t

theorem Inv.joins (h : Inv boot s q c) (hj : Joins t s s') (htq : t ∉ q) (htc : t ≠ c) : Inv boot s' (q ++ [t]) c := by
  have hold : ∀ {x}, x ∈ s.allTasks → x ∈ s'.allTasks := fun hx => (hj.allTasks _).mpr (Or.inl hx)
  have hc : (s'.task c).state = (s.task c).state := by rw [hj.state, if_neg (Ne.symm htc)]
  refine ⟨⟨⟨hj.queue q h.queue htq, hj.lapicId ▸ h.lapic, ?_, hold h.curMem, fun x hx => ?_,
    fun i hi => hold (h.idleMem i (hj.idleTask ▸ hi)), hj.schedulerActive.trans h.active⟩, ?_, fun x hx hxb hxr => ?_,
    fun hi => ⟨?_, fun x hx => ?_⟩⟩, ?_⟩
  · rw [hj.currentTasks, hj.lapicId]
    exact h.cur
  · rcases List.mem_append.mp hx with hx | hx
    · exact hold (h.sub x hx)
    · exact (hj.allTasks x).mpr (Or.inr (List.mem_singleton.mp hx))
  · simp [h.out, Ne.symm htc]
  · by_cases hxt : x = t
    · exact Or.inl (by simp [hxt])
    · rw [Runnable, hj.state, if_neg hxt] at hxr
      rcases h.kept x (((hj.allTasks x).mp hx).resolve_right hxt) hxb hxr with hxq | hxc
      · exact Or.inl (List.mem_append_left _ hxq)
      · exact Or.inr hxc
  · rw [hc]
    exact (h.idle (hj.idleTask ▸ hi)).1
  · rw [hj.state]
    split_ifs with hxt
    · decide
    · exact (h.idle (hj.idleTask ▸ hi)).2 x
        ((List.mem_append.mp hx).resolve_right fun he => hxt (List.mem_singleton.mp he))
  · rw [hc]
    exact h.curState

theorem wake_joins (htm : t ∈ s.allTasks) (hb : (s.task t).state = .blocked) : Joins t s (wake t s) := by
  have ha := (setState_aside t .ready s).trans (push_aside t (setState t .ready s))
  unfold Sched.wake
  rw [if_pos hb]
  refine ⟨fun q hq ht => (hq.setState t .ready).push ht, fun y => ?_, ha.lapicId, ha.currentTasks, ha.idleTask,
    ha.schedulerActive, fun x => ?_⟩
  · rw [push_state, setState_state]
  · rw [ha.allTasks]
    exact ⟨Or.inl, fun hx => hx.elim id fun he => he ▸ htm⟩

/-- Without an idle task a blocked task may still be current or queued; it must not be woken then. -/
def WakeOk (s : State) : Op → Prop
  | .wake t => s.idleTask = none → (s.task t).state = .blocked → currentTask s ≠ some t ∧ ∀ q, Queue s q → t ∉ q
  | _ => True

theorem Inv.blocked_out (h : Inv boot s q c) (hb : (s.task t).state = .blocked) (hok : WakeOk s (.wake t)) :
    t ∉ q ∧ t ≠ c := by
  by_cases hi : s.idleTask = none
  · obtain ⟨hcur, hq⟩ := hok hi hb
    refine ⟨hq q h.queue, fun he => hcur ?_⟩
    rw [he, h.currentTask]
  · obtain ⟨hc, hq⟩ := h.idle hi
    exact ⟨fun ht => hq t ht hb, fun he => hc (he ▸ hb)⟩

theorem Inv.wake (h : Inv boot s q c) (htm : t ∈ s.allTasks) (hok : WakeOk s (.wake t)) :
    ∃ q', Inv boot (wake t s) q' c := by
  by_cases hb : (s.task t).state = .blocked
  · obtain ⟨htq, htc⟩ := h.blocked_out hb hok
    exact ⟨q ++ [t], h.joins (wake_joins htm hb) htq htc⟩
  · unfold Sched.wake
    rw [if_neg hb]
    exact ⟨q, h⟩

/-- The current task runs no more, but could. -/
theorem Holds.ready (h : Holds boot s q c) : Holds boot (setState c .ready s) q c := by
  refine ⟨h.toPlaced.congr (setState_aside c .ready s) (h.queue.setState c .ready) h.sub, h.out, fun t ht htb htr => ?_,
    fun hi => ⟨?_, fun t ht => ?_⟩⟩
  · by_cases htc : t = c
    · exact Or.inr htc
    · rw [Runnable, setState_state, if_neg htc] at htr
      exact h.kept t ht htb htr
  · rw [setState_state, if_pos rfl]
    decide
  · rw [setState_state, if_neg (ne_of_mem_of_not_mem ht h.out)]
    exact (h.idle hi).2 t ht

theorem Inv.preempt_eq (h : Inv boot s q c) : ∃ s₁, Inv boot s₁ q c ∧ Aside s s₁ ∧ s₁.task = s.task ∧
    schedDoPreempt s = if (s₁.task c).state = .running then
      scheduleInternal (readyQueuePush c (setState c .ready s₁)) else scheduleInternal s₁ := by
  have h₁ : Inv boot { s with needReschedule := update s.needReschedule s.lapicId false } q c :=
    ⟨⟨⟨⟨h.queue.linked, h.queue.head, h.queue.tail, h.queue.order⟩, h.lapic, h.cur, h.curMem, h.sub, h.idleMem, h.active⟩,
      h.out, h.kept, h.idle⟩, h.curState⟩
  refine ⟨_, h₁, ⟨rfl, rfl, rfl, rfl, rfl⟩, rfl, ?_⟩
  unfold schedDoPreempt
  rw [if_neg (Nat.not_le.mpr h.lapic), if_neg (by simp [h.active]), h₁.currentTask]

theorem Inv.preempt (h : Inv boot s q c) : ∃ q' c', Inv boot (schedDoPreempt s) q' c' := by
  obtain ⟨s₁, h₁, -, -, hpre⟩ := h.preempt_eq
  rw [hpre]
  split_ifs with hrun
  · exact h₁.toHolds.ready.requeue.scheduleInternal
  · exact (h₁.stopped hrun).scheduleInternal

/-! ### New tasks -/

theorem fresh_push (s₁ : State) (ha : Aside s s₁) (hq : ∀ q, Queue s q → Queue s₁ q)
    (hstate : ∀ y, (s₁.task y).state = if y = t then .ready else (s.task y).state) :
    Joins t s { readyQueuePush t s₁ with allTasks := (readyQueuePush t s₁).allTasks ++ [t] } := by
  have ha' := ha.trans (push_aside t s₁)
  refine ⟨fun q h ht => ?_, fun y => ?_, ha'.lapicId, ha'.currentTasks, ha'.idleTask, ha'.schedulerActive, fun x => ?_⟩
  · exact ((hq q h).push ht).congr (fun _ => rfl) (fun _ => rfl) rfl rfl rfl rfl
  · exact (push_state t y s₁).trans (hstate y)
  · rw [ha'.allTasks, List.mem_append, List.mem_singleton]

theorem Queue.takeId (h : Queue s q) : Queue (takeId s).2 q := ⟨h.linked, h.head, h.tail, h.order⟩

theorem schedEnqueue_fresh (t : Addr) (s : State) : Joins t s (schedEnqueue t s) := by
  unfold schedEnqueue
  dsimp only [takeId]
  refine fresh_push (setState t .ready _) ?_ (fun q h => Queue.setState ?_ t .ready) fun y => ?_
  · split_ifs <;> exact ⟨rfl, rfl, rfl, rfl, rfl⟩
  · split_ifs
    · exact h.takeId.modify t _ fun _ => ⟨rfl, rfl⟩
    · exact h
  · rw [setState_state]
    split_ifs with hyt hid
    · rfl
    · rw [task_modify, if_neg hyt]
    · rfl

theorem createTaskInternal_cases (mem : Option Addr) (stack : Bool) (s : State) :
    createTaskInternal mem stack s = (none, s) ∨
      ∃ t s', mem = some t ∧ createTaskInternal mem stack s = (some t, s') ∧ Joins t s s' := by
  cases mem with
  | none => exact Or.inl rfl
  | some t =>
    cases stack with
    | false => exact Or.inl rfl
    | true =>
      refine Or.inr ⟨t, _, rfl, rfl, fresh_push _ ⟨rfl, rfl, rfl, rfl, rfl⟩ (fun q h => ?_) fun y => ?_⟩
      · exact h.takeId.modify t _ fun _ => ⟨rfl, rfl⟩
      · rw [task_modify]
        split_ifs <;> rfl

theorem Inv.fresh (h : Inv boot s q c) (hf : Joins t s s') (ht : t ∉ s.allTasks) : Inv boot s' (q ++ [t]) c :=
  h.joins hf (fun htq => ht (h.sub t htq)) fun he => ht (he ▸ h.curMem)

/-! ### Boot -/

/-- Before `start_scheduler` every task but the boot task is ready and queued. -/
structure Booting (boot : Addr) (s : State) (q : List Addr) : Prop where
  queue : Queue s q
  bootMem : boot ∈ s.allTasks
  out : boot ∉ q
  mem : ∀ t, t ∈ s.allTasks → t ≠ boot → t ∈ q
  sub : ∀ t ∈ q, t ∈ s.allTasks
  ready : ∀ t ∈ q, (s.task t).state = .ready

theorem Booting.fresh (h : Booting boot s q) (hf : Joins t s s') (ht : t ∉ s.allTasks) : Booting boot s' (q ++ [t]) := by
  have hall := hf.allTasks
  have htb : t ≠ boot := fun he => ht (he ▸ h.bootMem)
  refine ⟨hf.queue q h.queue fun htq => ht (h.sub t htq), (hall _).mpr (Or.inl h.bootMem), ?_, fun x hx hxb => ?_,
    fun x hx => ?_, fun x hx => ?_⟩
  · simp [h.out, Ne.symm htb]
  · rw [List.mem_append, List.mem_singleton]
    exact ((hall x).mp hx).imp_left fun hxs => h.mem x hxs hxb
  · rw [List.mem_append, List.mem_singleton] at hx
    exact (hall x).mpr (hx.imp_left (h.sub x))
  · rw [hf.state]
    split_ifs with hxt
    · rfl
    · exact h.ready x ((List.mem_append.mp hx).resolve_right fun he => hxt (List.mem_singleton.mp he))

/-- The state of `init_task_system` before it makes the idle task. -/
def bspOnly (bspLapicId : ℕ) (bsp : Addr) (s : State) : State :=
  let s := { s with
    nextTaskId := 2
    currentTasks := if bspLapicId < maxCpus then update (fun _ => none) bspLapicId (some bsp) else fun _ => none
    head := none
    tail := none
    allTasks := [bsp]
    pushes := []
    pops := [] }
  s.modify bsp fun t => { t with
    id := 1
    state := .running }

theorem initTaskSystem_eq (bspLapicId : ℕ) (bsp : Addr) (idle : Option Addr) (stack : Bool) (s : State) :
    initTaskSystem bspLapicId bsp idle stack s =
      { (createTaskInternal idle stack (bspOnly bspLapicId bsp s)).2 with
        idleTask := (createTaskInternal idle stack (bspOnly bspLapicId bsp s)).1 } := by
  unfold initTaskSystem bspOnly
  split_ifs <;> rfl

theorem bspOnly_booting (bspLapicId : ℕ) (bsp : Addr) (s : State) : Booting bsp (bspOnly bspLapicId bsp s) [] :=
  ⟨⟨Linked.nil, rfl, rfl, rfl⟩, List.mem_cons_self, List.not_mem_nil,
    fun _ ht hne => absurd (List.mem_singleton.mp ht) hne, fun _ ht => (nomatch ht), fun _ ht => (nomatch ht)⟩

theorem Booting.idleTask (h : Booting boot s q) (i : Option Addr) : Booting boot { s with idleTask := i } q :=
  ⟨h.queue.congr (fun _ => rfl) (fun _ => rfl) rfl rfl rfl rfl, h.bootMem, h.out, h.mem, h.sub, h.ready⟩

/-- The state when `start_scheduler` is called. -/
structure Launch (boot : Addr) (lapicId : ℕ) (s : State) (q : List Addr) : Prop extends Booting boot s q where
  lapic : s.lapicId = lapicId
  idleMem : ∀ i, s.idleTask = some i → i ∈ s.allTasks

variable {lapicId : ℕ}

theorem Launch.fresh (h : Launch boot lapicId s q) (hf : Joins t s s') (ht : t ∉ s.allTasks) :
    Launch boot lapicId s' (q ++ [t]) := by
  refine ⟨h.toBooting.fresh hf ht, hf.lapicId.trans h.lapic, fun i hi => ?_⟩
  exact (hf.allTasks i).mpr (Or.inl (h.idleMem i (hf.idleTask ▸ hi)))

theorem launch_init (bsp : Addr) (idle : Option Addr) (stack : Bool) (s : State) (hidle : idle ≠ some bsp) :
    ∃ q, Launch bsp s.lapicId (initTaskSystem s.lapicId bsp idle stack s) q := by
  have hbase := bspOnly_booting s.lapicId bsp s
  rw [initTaskSystem_eq]
  rcases createTaskInternal_cases idle stack (bspOnly s.lapicId bsp s) with hc | ⟨t, s', ht, hc, hf⟩
  · rw [hc]
    exact ⟨[], hbase.idleTask none, rfl, nofun⟩
  · have htb : t ∉ [bsp] := fun hm => hidle (by rw [ht, List.mem_singleton.mp hm])
    rw [hc]
    refine ⟨_, (hbase.fresh hf htb).idleTask (some t), hf.lapicId, fun i hi => ?_⟩
    cases hi
    exact (hf.allTasks t).mpr (Or.inr rfl)

theorem Launch.prepared {s₀ : State} (h₀ : ∃ q, Launch boot lapicId s₀ q) (h : Prepared s₀ s) :
    ∃ q, Launch boot lapicId s q := by
  induction h with
  | init => exact h₀
  | @create s mem stack _ hop ih =>
    obtain ⟨q, hq⟩ := ih
    dsimp only [exec]
    rcases createTaskInternal_cases mem stack s with hc | ⟨t, s', ht, hc, hf⟩
    · rw [hc]
      exact ⟨q, hq⟩
    · rw [hc]
      exact ⟨_, hq.fresh hf (hop t ht)⟩
  | @enqueue s task _ hop ih =>
    obtain ⟨q, hq⟩ := ih
    exact ⟨_, hq.fresh (schedEnqueue_fresh task s) hop⟩

/-! ### The run -/

/-- The ready queue is in order, the current task is not in it, and every task that could run is current
or in the queue. -/
def QueueOk (boot : Addr) (s : State) : Prop :=
  ∃ q, Queue s q ∧ (∀ c, currentTask s = some c → c ∉ q) ∧
    ∀ t ∈ s.allTasks, t ≠ boot → Runnable s t → t ∈ q ∨ currentTask s = some t

theorem Inv.ok (h : Inv boot s q c) : QueueOk boot s := by
  refine ⟨q, h.queue, fun d hd => ?_, fun t ht htb htr => ?_⟩
  · rw [h.currentTask] at hd
    exact Option.some.inj hd ▸ h.out
  · rw [h.currentTask, Option.some_inj]
    exact (h.kept t ht htb htr).imp_right Eq.symm

theorem Inv.step {op : Op} (h : Inv boot s q c) (hop : Allowed s op) (hok : WakeOk s op) :
    ∃ q' c', Inv boot (exec op s) q' c' := by
  cases op with
  | createTask mem stack =>
    dsimp only [exec]
    rcases createTaskInternal_cases mem stack s with hc | ⟨t, s', ht, hc, hf⟩
    · rw [hc]
      exact ⟨q, c, h⟩
    · rw [hc]
      exact ⟨_, c, h.fresh hf (hop t ht)⟩
  | schedEnqueue task => exact ⟨_, c, h.fresh (schedEnqueue_fresh task s) hop⟩
  | yield =>
    dsimp only [exec, yield]
    rw [h.currentTask]
    exact h.toHolds.requeue.scheduleInternal
  | block =>
    dsimp only [exec, block]
    rw [h.currentTask]
    exact (h.toHolds.stop (Or.inl rfl)).scheduleInternal
  | wake t =>
    obtain ⟨q', h'⟩ := h.wake hop hok
    exact ⟨q', c, h'⟩
  | schedDoPreempt => exact h.preempt
  | taskFinished =>
    dsimp only [exec, taskFinished]
    rw [h.currentTask]
    exact (h.toHolds.stop (Or.inr rfl)).scheduleInternal

/-- `start_scheduler` before it makes the first task `x` of the queue the current one. -/
structure Started (x : Addr) (q : List Addr) (s s' : State) : Prop where
  queue : Queue s' q
  lapicId : s'.lapicId = s.lapicId
  idleTask : s'.idleTask = s.idleTask
  allTasks : s'.allTasks = s.allTasks
  active : s'.schedulerActive = true
  state : ∀ y, (s'.task y).state = if y = x then .running else (s.task y).state

theorem startScheduler_some (h : Queue s q) (hstart : startScheduler s = some s₂) :
    ∃ x q' s', q = x :: q' ∧ Started x q' s s' ∧ s₂ = setCurrentTask (some x) s' := by
  unfold startScheduler at hstart
  cases q with
  | nil =>
    rw [h.pop_nil] at hstart
    cases hstart
  | cons x q =>
    obtain ⟨s', hpop, hp⟩ := h.pop_cons
    rw [hpop] at hstart
    have hq : Queue { s' with schedulerActive := true } q :=
      ⟨hp.queue.linked, hp.queue.head, hp.queue.tail, hp.queue.order⟩
    refine ⟨x, q, _, rfl, ⟨hq.setState x .running, hp.aside.lapicId, hp.aside.idleTask, hp.aside.allTasks, rfl,
      fun y => ?_⟩, (Option.some.inj hstart).symm⟩
    rw [setState_state]
    split_ifs
    · rfl
    · exact hp.state y

theorem Launch.start (h : Launch boot lapicId s q) (hl : lapicId < maxCpus)
    (hstart : startScheduler s = some s₂) : ∃ q' c', Inv boot s₂ q' c' := by
  obtain ⟨x, q, s', rfl, hp, rfl⟩ := startScheduler_some h.queue hstart
  have hnd := List.nodup_cons.mp h.queue.linked.nodup
  have hlapic : s'.lapicId < maxCpus := by
    rw [hp.lapicId, h.lapic]
    exact hl
  rw [setCurrentTask_eq hlapic]
  refine ⟨q, x, ⟨⟨⟨hp.queue.congr (fun _ => rfl) (fun _ => rfl) rfl rfl rfl rfl, hlapic, update_self _ _ _,
    hp.allTasks ▸ h.sub x List.mem_cons_self, fun t ht => ?_, fun i hi => ?_, hp.active⟩, hnd.1, fun t ht htb _ => ?_,
    fun _ => ⟨?_, fun t ht => ?_⟩⟩, ?_⟩⟩
  · exact hp.allTasks ▸ h.sub t (List.mem_cons_of_mem _ ht)
  · exact hp.allTasks ▸ h.idleMem i (hp.idleTask ▸ hi)
  · exact (List.mem_cons.mp (h.mem t (hp.allTasks ▸ ht) htb)).symm
  · rw [hp.state, if_pos rfl]
    decide
  · rw [hp.state, if_neg (ne_of_mem_of_not_mem ht hnd.1), h.ready t (List.mem_cons_of_mem _ ht)]
    decide
  · rw [hp.state, if_pos rfl]
    decide

/-- A CPU without a slot in `current_tasks` forgets the first task. -/
theorem Launch.start_lost (h : Launch boot lapicId s q) (hl : maxCpus ≤ lapicId)
    (hstart : startScheduler s = some s₂) : ¬QueueOk boot s₂ := by
  obtain ⟨x, q, s', rfl, hp, rfl⟩ := startScheduler_some h.queue hstart
  have hlapic : maxCpus ≤ s'.lapicId := by
    rw [hp.lapicId, h.lapic]
    exact hl
  have hset : setCurrentTask (some x) s' = s' := if_neg (Nat.not_lt.mpr hlapic)
  have hcur : currentTask s' = none := if_pos hlapic
  have hxr : Runnable s' x := by
    rw [Runnable, hp.state, if_pos rfl]
    exact ⟨by decide, by decide⟩
  rw [hset]
  rintro ⟨q', hq', -, hkept⟩
  rcases hkept x (hp.allTasks ▸ h.sub x List.mem_cons_self) (ne_of_mem_of_not_mem List.mem_cons_self h.out) hxr with hx | hx
  · rw [hq'.linked.unique hp.queue.linked (hq'.head.symm.trans hp.queue.head)] at hx
    exact (List.nodup_cons.mp h.queue.linked.nodup).1 hx
  · rw [hcur] at hx
    cases hx

theorem Inv.run (h : ∃ q c, Inv boot s₂ q c) (hrun : Run WakeOk s₂ s) : ∃ q c, Inv boot s q c := by
  induction hrun with
  | start => exact h
  | step _ hop hok ih =>
    obtain ⟨q, c, hinv⟩ := ih
    exact hinv.step hop hok

/-- The scheduler keeps its tasks in order when its CPU has a slot in `current_tasks`, as long as no task
is woken that is blocked and still current or queued; with an idle task there is none. -/
theorem ready_queue_ok {bsp : Addr} {idle : Option Addr} {stack : Bool} {s₀ s₁ s₂ : State} (hidle : idle ≠ some bsp)
    (hprep : Prepared (initTaskSystem s₀.lapicId bsp idle stack s₀) s₁) (hstart : startScheduler s₁ = some s₂) :
    (QueueOk bsp s₂ ↔ s₀.lapicId < maxCpus) ∧
      (s₀.lapicId < maxCpus → ∀ s, Run WakeOk s₂ s → QueueOk bsp s) := by
  obtain ⟨q, hlaunch⟩ := Launch.prepared (launch_init bsp idle stack s₀ hidle) hprep
  have hrun : s₀.lapicId < maxCpus → ∀ s, Run WakeOk s₂ s → QueueOk bsp s := fun hl s hrun => by
    obtain ⟨q', c', h⟩ := Inv.run (hlaunch.start hl hstart) hrun
    exact h.ok
  refine ⟨⟨fun hok => ?_, fun hl => hrun hl s₂ .start⟩, hrun⟩
  by_contra hl
  exact hlaunch.start_lost (Nat.le_of_not_lt hl) hstart hok

/-- Memory before boot, on a CPU with the given id. -/
def coldState (lapicId : ℕ) : State :=
  ⟨fun _ => ⟨0, .ready, none, none⟩, none, none, lapicId, fun _ => none, none, fun _ => false, false, 0, [], [], []⟩

/-- The boot task is 1, there is no memory for the idle task, and the kernel's main task is 2. -/
def withoutIdle : State := exec (.createTask (some 2) true) (initTaskSystem 0 1 none true (coldState 0))

/-- The boot task is 1, the idle task 2 and the kernel's main task 3. -/
def withIdle : State := exec (.createTask (some 3) true) (initTaskSystem 0 1 (some 2) true (coldState 0))

theorem ready_queue_ok_two :
    ∃ s₂, startScheduler withIdle = some s₂ ∧ currentTask s₂ = some 2 ∧ QueueOk 1 (exec .yield s₂) := by
  have hprep : Prepared (initTaskSystem (coldState 0).lapicId 1 (some 2) true (coldState 0)) withIdle :=
    .create .init fun a ha => by
      cases ha
      decide
  obtain ⟨s₂, hs₂, hcur⟩ : ∃ s₂, startScheduler withIdle = some s₂ ∧ currentTask s₂ = some 2 := ⟨_, rfl, rfl⟩
  exact ⟨s₂, hs₂, hcur, (ready_queue_ok (by decide) hprep hs₂).2 (by decide) _ (.step .start trivial trivial)⟩

/-- Without an idle task the current task can be blocked and stay current; waking it queues it. -/
theorem current_task_queued : ∃ s₂ s, startScheduler withoutIdle = some s₂ ∧ Run (fun _ _ => True) s₂ s ∧
    ¬QueueOk 1 s := by
  have hrun : (startScheduler withoutIdle).map (fun s₂ => ((exec .block s₂).allTasks,
      (exec (.wake 2) (exec .block s₂)).head, currentTask (exec (.wake 2) (exec .block s₂)))) =
      some ([1, 2], some 2, some 2) := by decide +kernel
  obtain ⟨s₂, hs₂, hfacts⟩ := Option.map_eq_some_iff.mp hrun
  simp only [Prod.mk.injEq] at hfacts
  obtain ⟨hall, hhead, hcur⟩ := hfacts
  have hop : Allowed (exec .block s₂) (.wake 2) := by
    change 2 ∈ (exec .block s₂).allTasks
    rw [hall]
    decide
  have hblock : Run (fun _ _ => True) s₂ (exec .block s₂) := .step .start trivial trivial
  refine ⟨s₂, _, hs₂, .step hblock hop trivial, ?_⟩
  rintro ⟨q, hq, hout, -⟩
  exact hout 2 hcur (List.mem_of_mem_head? (hq.head.symm.trans hhead))

end Tori.Sched
