import Tori.Spec.Process

/-! Processes with the state of their thread: who runs in user mode, who is blocked inside
`sys_waitpid`, and who has been woken there. Each system call is one step up to its `block()`. -/

namespace Tori.Proc

/-! ### New processes -/

/-- `sys_fork` after `clone_address_space`; `thread` is the answer of `thread_create`. -/
def forkProcess (parent : Addr) (mem : Option Addr) (pml4Phys : ℕ) (thread : Option Addr) (s : State) :
    Option Addr × State :=
  match processCreate mem pml4Phys (some parent) s with
  | (none, s) => (none, s)
  | (some child, s) =>
    let s := s.modify child fun c => { c with fdTable := (s.proc parent).fdTable }
    match thread with
    | none => (none, s.modify child fun c => { c with state := .dead })
    | some t => (some child, s.modify child fun c => { c with threadList := some t })

/-- `process_spawn` after `create_user_pml4`; `image` is the break that `elf64_load` reports. -/
def spawnProcess (mem : Option Addr) (pml4Phys : ℕ) (image : Option ℕ) (thread : Option Addr) (s : State) :
    Option Addr × State :=
  match processCreate mem pml4Phys none s with
  | (none, s) => (none, s)
  | (some proc, s) =>
    match image, thread with
    | some brkBase, some t =>
      (some proc, s.modify proc fun p => { p with brk := brkBase, brkBase := brkBase, threadList := some t })
    | _, _ => (none, s.modify proc fun p => { p with state := .dead })

/-! ### Threads -/

/-- The one thread of a process; `ready` is woken, but still inside `sys_waitpid`. -/
inductive Thread where
  | user
  | blocked (target : ℤ)
  | ready (target : ℤ)
  | gone
  deriving DecidableEq

structure Sys where
  procs : State
  thread : Addr → Thread

/-- A new process starts in user mode. -/
def Sys.launch (s : Sys) : Option Addr × State → Sys
  | (none, procs) => { s with procs := procs }
  | (some a, procs) => ⟨procs, Function.update s.thread a .user⟩

/-- `sched::wake`. -/
def wakeThread : Thread → Thread
  | .blocked target => .ready target
  | t => t

def wake (thread : Addr → Thread) : Option Addr → Addr → Thread
  | none => thread
  | some task => Function.update thread task (wakeThread (thread task))

/-- Where a thread is after one round of `sys_waitpid`. -/
def afterRound (target : ℤ) : WaitResult → Thread
  | .block => .blocked target
  | _ => .user

inductive Op where
  | fork (p : Addr) (mem : Option Addr) (pml4Phys : ℕ) (thread : Option Addr)
  | spawn (mem : Option Addr) (pml4Phys : ℕ) (image : Option ℕ) (thread : Option Addr)
  | exit (p : Addr) (status : ℤ)
  | waitpid (p : Addr) (target : ℤ) (noHang : Bool)
  | resume (p : Addr)
  | reapInit

def Sys.round (s : Sys) (p : Addr) (target : ℤ) (noHang : Bool) : Option Sys :=
  (waitRound p target noHang s.procs).map fun (r, procs) =>
    ⟨procs, Function.update s.thread p (afterRound target r)⟩

def Sys.step (s : Sys) : Op → Option Sys
  | .fork p mem pml4Phys thread => some (s.launch (forkProcess p mem pml4Phys thread s.procs))
  | .spawn mem pml4Phys image thread => some (s.launch (spawnProcess mem pml4Phys image thread s.procs))
  | .exit p status => (exitProcess p status s.procs).map fun (woken, procs) =>
      ⟨procs, wake (Function.update s.thread p .gone) woken⟩
  | .waitpid p target noHang => s.round p target noHang
  | .resume p => match s.thread p with
    | .ready target => s.round p target false
    | _ => none
  | .reapInit => (reapZombiesOfInit s.procs).map fun procs => { s with procs := procs }

/-- Only a process that exists and runs in user mode makes system calls, and `kalloc` returns memory that
is not in use. -/
def Sys.Enabled (s : Sys) : Op → Prop
  | .fork p mem _ _ => s.procs.live p = true ∧ s.thread p = .user ∧ ∀ a, mem = some a → s.procs.live a = false
  | .spawn mem _ _ _ => ∀ a, mem = some a → s.procs.live a = false
  | .exit p _ => s.procs.live p = true ∧ s.thread p = .user
  | .waitpid p _ _ => s.procs.live p = true ∧ s.thread p = .user
  | .resume p => s.procs.live p = true ∧ ∃ target, s.thread p = .ready target
  | .reapInit => True

instance (s : Sys) (op : Op) : Decidable (s.Enabled op) :=
  match op with
  | .fork p mem _ _ => inferInstanceAs (Decidable (s.procs.live p = true ∧ s.thread p = .user ∧
      ∀ a, mem = some a → s.procs.live a = false))
  | .spawn mem _ _ _ => inferInstanceAs (Decidable (∀ a, mem = some a → s.procs.live a = false))
  | .exit p _ => inferInstanceAs (Decidable (s.procs.live p = true ∧ s.thread p = .user))
  | .waitpid p _ _ => inferInstanceAs (Decidable (s.procs.live p = true ∧ s.thread p = .user))
  | .resume p => match h : s.thread p with
    | .ready target => decidable_of_iff (s.procs.live p = true) ⟨fun hl => ⟨hl, target, h⟩, And.left⟩
    | .user | .blocked _ | .gone => isFalse fun ⟨_, _, ht⟩ => by simp [h] at ht
  | .reapInit => isTrue trivial

/-- The state after the steps `ops`, if each of them could be taken. -/
def runOps : List Op → Sys → Option Sys
  | [], s => some s
  | op :: ops, s => if s.Enabled op then (s.step op).bind (runOps ops) else none

/-- After `init_process_system` the kernel spawns init. -/
def Sys.boot (init : Addr) (pml4Phys brkBase : ℕ) (thread : Addr) (s₀ : State) : Sys :=
  Sys.launch ⟨s₀, fun _ => .gone⟩ (spawnProcess (some init) pml4Phys (some brkBase) (some thread) (initProcessSystem s₀))

end Tori.Proc
