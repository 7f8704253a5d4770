import Tori.Lib.DList

/-! The scheduler of one CPU: the ready queue with its links in the tasks, the current task, and the
operations that move tasks between them. Stacks and register contexts are not part of the state. -/

namespace Tori.Sched

abbrev Addr := ℕ

/-- `CONFIG_MAX_CPUS`. -/
def maxCpus : ℕ := 128

inductive TaskState where
  | ready
  | running
  | blocked
  | dead
  deriving DecidableEq

structure Task where
  id : ℕ
  state : TaskState
  readyNext : Option Addr
  readyPrev : Option Addr

/-- `lapicId` is what the CPU's `lapic::id()` returns. `pushes` and `pops` record what went through the
ready queue so far; no operation reads them. -/
structure State where
  task : Addr → Task
  head : Option Addr
  tail : Option Addr
  lapicId : ℕ
  currentTasks : ℕ → Option Addr
  idleTask : Option Addr
  needReschedule : ℕ → Bool
  schedulerActive : Bool
  nextTaskId : ℕ
  allTasks : List Addr
  pushes : List Addr
  pops : List Addr

def State.modify (a : Addr) (f : Task → Task) (s : State) : State :=
  { s with task := Function.update s.task a (f (s.task a)) }

def setState (a : Addr) (st : TaskState) (s : State) : State := s.modify a fun t => { t with state := st }

/-! ### The ready queue -/

def readyQueuePush (task : Addr) (s : State) : State :=
  let tail := s.tail
  let s := s.modify task fun t => { t with readyNext := none, readyPrev := tail }
  let s := match tail with
    | some b => s.modify b fun t => { t with readyNext := some task }
    | none => { s with head := some task }
  { s with
    tail := some task
    pushes := s.pushes ++ [task] }

def readyQueuePop (s : State) : Option Addr × State :=
  match s.head with
  | none => (none, s)
  | some task =>
    let next := (s.task task).readyNext
    let s := { s with head := next }
    let s := match next with
      | some n => s.modify n fun t => { t with readyPrev := none }
      | none => { s with tail := none }
    let s := s.modify task fun t => { t with readyNext := none, readyPrev := none }
    (some task, { s with pops := s.pops ++ [task] })

/-! ### The current task -/

def currentTask (s : State) : Option Addr :=
  if s.lapicId ≥ maxCpus then none else s.currentTasks s.lapicId

def setCurrentTask (task : Option Addr) (s : State) : State :=
  if s.lapicId < maxCpus then { s with currentTasks := Function.update s.currentTasks s.lapicId task } else s

/-- The end of `schedule_internal`, for the task `next` to run. -/
def switchTo (current : Option Addr) (next : Addr) (s : State) : State :=
  if some next = current then setState next .running s
  else setCurrentTask (some next) (setState next .running s)

def scheduleInternal (s : State) : State :=
  let current := currentTask s
  match readyQueuePop s with
  | (some next, s) => switchTo current next s
  | (none, s) =>
    if ∃ c, current = some c ∧ (s.task c).state = .running then s
    else
      match s.idleTask with
      | none => s
      | some idle => switchTo current idle s

def yield (s : State) : State :=
  match currentTask s with
  | some current => scheduleInternal (readyQueuePush current s)
  | none => scheduleInternal s

def block (s : State) : State :=
  match currentTask s with
  | some current => scheduleInternal (setState current .blocked s)
  | none => scheduleInternal s

def wake (task : Addr) (s : State) : State :=
  if (s.task task).state = .blocked then readyQueuePush task (setState task .ready s) else s

def schedDoPreempt (s : State) : State :=
  if s.lapicId ≥ maxCpus then s
  else
    let s := { s with needReschedule := Function.update s.needReschedule s.lapicId false }
    if !s.schedulerActive then s
    else
      match currentTask s with
      | none => s
      | some current =>
        if (s.task current).state = .running then
          scheduleInternal (readyQueuePush current (setState current .ready s))
        else scheduleInternal s

/-- The scheduler's part of `sys_exit`; `waitTask` is the parent's `wait_task`. -/
def sysExit (waitTask : Option Addr) (s : State) : State :=
  match currentTask s with
  | none => s
  | some task =>
    let s := match waitTask with
      | some parent => wake parent s
      | none => s
    block (setState task .dead s)

/-- The end of `tori_sched_task_entry`, when the entry function of the current task has returned. -/
def taskFinished (s : State) : State :=
  match currentTask s with
  | none => s
  | some task => scheduleInternal (setState task .dead s)

/-! ### New tasks -/

/-- The next task id, with the counter behind it. -/
def takeId (s : State) : ℕ × State := (s.nextTaskId, { s with nextTaskId := (s.nextTaskId + 1) % 2 ^ 64 })

/-- `mem` is the answer of `kalloc`, and `stack` tells whether there are pages for the stack. -/
def createTaskInternal (mem : Option Addr) (stack : Bool) (s : State) : Option Addr × State :=
  match mem with
  | none => (none, s)
  | some task =>
    if !stack then (none, s)
    else
      let (id, s) := takeId s
      let s := s.modify task fun t => { t with
        id := id
        state := .ready }
      let s := readyQueuePush task s
      (some task, { s with allTasks := s.allTasks ++ [task] })

def schedEnqueue (task : Addr) (s : State) : State :=
  let s := if (s.task task).id = 0 then
      let (id, s) := takeId s
      s.modify task fun t => { t with id := id }
    else s
  let s := readyQueuePush task (setState task .ready s)
  { s with allTasks := s.allTasks ++ [task] }

/-- `bsp` is the memory of the boot task; `idle` and `stack` are those of the idle task. -/
def initTaskSystem (bspLapicId : ℕ) (bsp : Addr) (idle : Option Addr) (stack : Bool) (s : State) : State :=
  let s := { s with
    nextTaskId := 1
    currentTasks := fun _ => none
    head := none
    tail := none
    allTasks := []
    pushes := []
    pops := [] }
  let (id, s) := takeId s
  let s := s.modify bsp fun t => { t with
    id := id
    state := .running }
  let s := if bspLapicId < maxCpus then
      { s with currentTasks := Function.update s.currentTasks bspLapicId (some bsp) }
    else s
  let s := { s with allTasks := s.allTasks ++ [bsp] }
  let (idleTask, s) := createTaskInternal idle stack s
  { s with idleTask := idleTask }

/-- No result stands for the panic without tasks. -/
def startScheduler (s : State) : Option State :=
  match readyQueuePop s with
  | (none, _) => none
  | (some next, s) =>
    let s := { s with schedulerActive := true }
    some (setCurrentTask (some next) (setState next .running s))

/-! ### Runs -/

inductive Op where
  | createTask (mem : Option Addr) (stack : Bool)
  | schedEnqueue (task : Addr)
  | yield
  | block
  | wake (task : Addr)
  | schedDoPreempt
  | taskFinished

def exec : Op → State → State
  | .createTask mem stack, s => (createTaskInternal mem stack s).2
  | .schedEnqueue task, s => schedEnqueue task s
  | .yield, s => yield s
  | .block, s => block s
  | .wake task, s => wake task s
  | .schedDoPreempt, s => schedDoPreempt s
  | .taskFinished, s => taskFinished s

/-- New tasks are new memory, and only tasks that exist are woken. -/
def Allowed (s : State) : Op → Prop
  | .createTask mem _ => ∀ a, mem = some a → a ∉ s.allTasks
  | .schedEnqueue task => task ∉ s.allTasks
  | .wake task => task ∈ s.allTasks
  | _ => True

/-- The state when `start_scheduler` is called: only new tasks were made since `init_task_system`. -/
inductive Prepared (s₀ : State) : State → Prop
  | init : Prepared s₀ s₀
  | create {s : State} {mem : Option Addr} {stack : Bool} (h : Prepared s₀ s)
      (hop : Allowed s (.createTask mem stack)) : Prepared s₀ (exec (.createTask mem stack) s)
  | enqueue {s : State} {task : Addr} (h : Prepared s₀ s) (hop : Allowed s (.schedEnqueue task)) :
      Prepared s₀ (exec (.schedEnqueue task) s)

/-- The runs whose steps satisfy `ok`. -/
inductive Run (ok : State → Op → Prop) (s₀ : State) : State → Prop
  | start : Run ok s₀ s₀
  | step {s : State} {op : Op} (h : Run ok s₀ s) (hop : Allowed s op) (hok : ok s op) : Run ok s₀ (exec op s)

/-! ### Exits -/

/-- What the CPU does next: an operation, or `sys_exit` of the current task. -/
inductive Call where
  | op (op : Op)
  | sysExit (waitTask : Option Addr)

def Call.exec : Call → State → State
  | .op o, s => Sched.exec o s
  | .sysExit waitTask, s => Sched.sysExit waitTask s

def Awake (s : State) : Prop := ∃ c, currentTask s = some c ∧ (s.task c).state ≠ .dead

/-- A task that has finished makes no calls, and `idle_entry` does not return. -/
def Call.Enabled (s : State) : Call → Prop
  | .op (.wake task) => Allowed s (.wake task)
  | .op .schedDoPreempt => True
  | .op .taskFinished => Awake s ∧ currentTask s ≠ s.idleTask
  | .op o => Awake s ∧ Allowed s o
  | .sysExit waitTask => Awake s ∧ ∀ parent, waitTask = some parent → Allowed s (.wake parent)

/-- The runs whose calls satisfy `ok`. -/
inductive Calls (ok : State → Call → Prop) (s₀ : State) : State → Prop
  | start : Calls ok s₀ s₀
  | step {s : State} {call : Call} (h : Calls ok s₀ s) (hop : call.Enabled s) (hok : ok s call) :
      Calls ok s₀ (call.exec s)

end Tori.Sched
