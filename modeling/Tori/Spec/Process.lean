import Tori.Lib.Word
import Tori.Lib.Loop
import Tori.Lib.DList
import Tori.Spec.Vfs

/-! Processes (`kernel/src/process/process.cpp`) and what `sys_exit` and `sys_waitpid` do to them. A
process is named by the address of its record, and its one task by the same address. Freeing a record
clears `live` and leaves the bytes where they are. A loop over a list that takes more steps than there
are pids does not end; such a call answers `none`. -/

namespace Tori.Proc

open Word Loop

abbrev Addr : Type := ℕ

def maxPids : ℕ := 32768

inductive ProcessState where
  | alive | zombie | dead
  deriving DecidableEq

structure Process where
  pid : ℕ
  state : ProcessState
  exitStatus : ℤ
  pml4Phys : ℕ
  fdTable : Vfs.FdTable Addr
  parent : Option Addr
  next : Option Addr
  prev : Option Addr
  threadList : Option Addr
  childHead : Option Addr
  childTail : Option Addr
  childNext : Option Addr
  childPrev : Option Addr
  waitTask : Option Addr
  brk : ℕ
  brkBase : ℕ

/-- All bytes zero. -/
def Process.zero : Process where
  pid := 0
  state := .alive
  exitStatus := 0
  pml4Phys := 0
  fdTable := fun _ => ⟨none, 0, 0, false⟩
  parent := none
  next := none
  prev := none
  threadList := none
  childHead := none
  childTail := none
  childNext := none
  childPrev := none
  waitTask := none
  brk := 0
  brkBase := 0

structure State where
  proc : Addr → Process
  live : Addr → Bool
  processList : Option Addr
  pidBitmap : ℕ → BitVec 64
  nextPidHint : ℕ
  systemInitialized : Bool

namespace State

def modify (a : Addr) (f : Process → Process) (s : State) : State :=
  { s with proc := Function.update s.proc a (f (s.proc a)) }

/-- `kalloc` returned `a`, and the record is zeroed. -/
def alloc (a : Addr) (s : State) : State :=
  { s with proc := Function.update s.proc a .zero, live := Function.update s.live a true }

def free (a : Addr) (s : State) : State := { s with live := Function.update s.live a false }

end State

/-! ### The two lists -/

def linkChild (parent child : Addr) (s : State) : State :=
  let tail := (s.proc parent).childTail
  let s := s.modify child fun c => { c with childNext := none, childPrev := tail }
  let s := match tail with
    | some t => s.modify t fun c => { c with childNext := some child }
    | none => s.modify parent fun p => { p with childHead := some child }
  s.modify parent fun p => { p with childTail := some child }

def unlinkChild (parent child : Addr) (s : State) : State :=
  let prev := (s.proc child).childPrev
  let next := (s.proc child).childNext
  let s := match prev with
    | some b => s.modify b fun c => { c with childNext := next }
    | none => s.modify parent fun p => { p with childHead := next }
  let s := match next with
    | some n => s.modify n fun c => { c with childPrev := prev }
    | none => s.modify parent fun p => { p with childTail := prev }
  s.modify child fun c => { c with childNext := none, childPrev := none }

def unlinkGlobal (proc : Addr) (s : State) : State :=
  let prev := (s.proc proc).prev
  let next := (s.proc proc).next
  let s := match prev with
    | some b => s.modify b fun p => { p with next := next }
    | none => { s with processList := next }
  let s := match next with
    | some n => s.modify n fun p => { p with prev := prev }
    | none => s
  s.modify proc fun p => { p with next := none, prev := none }

/-! ### Pids -/

def initProcessSystem (s : State) : State :=
  { s with pidBitmap := fun _ => 0, nextPidHint := 0, processList := none, systemInitialized := true }

def pidUsed (s : State) (pid : ℕ) : Bool := bitAt s.pidBitmap pid

def pidAlloc (s : State) : Option ℕ × State :=
  if !s.systemInitialized then (none, s)
  else
    match findUp (fun offset => !pidUsed s ((s.nextPidHint + offset) % maxPids)) maxPids 0 with
    | none => (none, s)
    | some offset =>
      let pid := (s.nextPidHint + offset) % maxPids
      (some pid, { s with pidBitmap := setBit s.pidBitmap pid, nextPidHint := (pid + 1) % maxPids })

def pidFree (pid : ℕ) (s : State) : State :=
  if pid ≥ maxPids ∨ s.systemInitialized = false then s
  else { s with pidBitmap := clearBit s.pidBitmap pid }

def findProcess (pid : ℕ) (s : State) : Option (Option Addr) :=
  DList.find (fun a => (s.proc a).next) (fun a => (s.proc a).pid = pid) (maxPids + 1) s.processList

def findInitProcess (s : State) : Option (Option Addr) := findProcess 0 s

/-! ### Creation and removal -/

/-- `mem` is the answer of `kalloc`. -/
def processCreate (mem : Option Addr) (pml4Phys : ℕ) (parent : Option Addr) (s : State) :
    Option Addr × State :=
  match mem with
  | none => (none, s)
  | some a =>
    match pidAlloc (s.alloc a) with
    | (none, s) => (none, s.free a)
    | (some pid, s) =>
      let s := s.modify a fun p => { p with
        pid := pid, state := .alive, exitStatus := 0, pml4Phys := pml4Phys, parent := parent, threadList := none,
        next := s.processList, prev := none }
      let s := match parent with
        | some p => linkChild p a s
        | none => s
      let s := match s.processList with
        | some h => s.modify h fun p => { p with prev := some a }
        | none => s
      (some a, { s with processList := some a })

/-- `free_address_space` is not part of this state. -/
def reapProcess (proc : Addr) (s : State) : State :=
  if (s.proc proc).state ≠ .zombie then s
  else
    let s := match (s.proc proc).parent with
      | some p => unlinkChild p proc s
      | none => s
    let s := unlinkGlobal proc s
    (pidFree (s.proc proc).pid s).free proc

def reparentLoop (dying newParent : Addr) : ℕ → Option Addr → State → Option State
  | 0, _, _ => none
  | _ + 1, none, s => some s
  | n + 1, some child, s =>
    let next := (s.proc child).childNext
    let s := unlinkChild dying child s
    let s := s.modify child fun c => { c with parent := some newParent }
    reparentLoop dying newParent n next (linkChild newParent child s)

def reparentChildren (dying newParent : Addr) (s : State) : Option State :=
  reparentLoop dying newParent (maxPids + 1) (s.proc dying).childHead s

def reapLoop : ℕ → Option Addr → State → Option State
  | 0, _, _ => none
  | _ + 1, none, s => some s
  | n + 1, some child, s =>
    let next := (s.proc child).childNext
    reapLoop n next (if (s.proc child).state = .zombie then reapProcess child s else s)

def reapZombiesOfInit (s : State) : Option State :=
  match findInitProcess s with
  | none => none
  | some none => some s
  | some (some init) => reapLoop (maxPids + 1) (s.proc init).childHead s

/-! ### System calls -/

def markZombie (proc : Addr) (status : ℤ) (s : State) : State :=
  s.modify proc fun p => { p with exitStatus := status, state := .zombie }

/-- What `sys_exit` does before it blocks, with the task it wakes. -/
def exitProcess (proc : Addr) (status : ℤ) (s : State) : Option (Option Addr × State) :=
  let s := markZombie proc status s
  let reparented := match findInitProcess s with
    | none => none
    | some none => some s
    | some (some init) => if init ≠ proc then reparentChildren proc init s else some s
  reparented.map fun s =>
    match (s.proc proc).parent with
    | none => (none, s)
    | some p =>
      match (s.proc p).waitTask with
      | none => (none, s)
      | some task => (some task, s.modify p fun p => { p with waitTask := none })

def childMatches (s : State) (target : ℤ) (child : Addr) : Bool :=
  target ≤ 0 || ((s.proc child).pid : ℤ) = target

/-- The first loop of `sys_waitpid`. -/
def findZombie (s : State) (target : ℤ) : ℕ → Option Addr → Option (Option Addr)
  | 0, _ => none
  | _ + 1, none => some none
  | n + 1, some child =>
    if childMatches s target child then
      if (s.proc child).state = .zombie then some (some child)
      else if target > 0 then some none
      else findZombie s target n (s.proc child).childNext
    else findZombie s target n (s.proc child).childNext

inductive WaitResult where
  | reaped (pid : ℕ) (status : ℤ)
  | noChild
  | noHang
  | block

/-- One round of `sys_waitpid`; `noHang` is the `WNOHANG` bit of its options. -/
def waitRound (proc : Addr) (target : ℤ) (noHang : Bool) (s : State) : Option (WaitResult × State) :=
  let head := (s.proc proc).childHead
  match findZombie s target (maxPids + 1) head with
  | none => none
  | some (some z) => some (.reaped (s.proc z).pid (s.proc z).exitStatus, reapProcess z s)
  | some none =>
    match DList.find (fun a => (s.proc a).childNext) (childMatches s target) (maxPids + 1) head with
    | none => none
    | some none => some (.noChild, s)
    | some (some _) =>
      if noHang then some (.noHang, s)
      else some (.block, s.modify proc fun p => { p with waitTask := some proc })

/-! ### Runs -/

inductive Call where
  | create (mem : Option Addr) (pml4Phys : ℕ) (parent : Option Addr)
  | exit (proc : Addr) (status : ℤ)
  | reparent (dying newParent : Addr)
  | waitpid (proc : Addr) (target : ℤ) (noHang : Bool)
  | reapInit

def exec : Call → State → Option State
  | .create mem pml4Phys parent, s => some (processCreate mem pml4Phys parent s).2
  | .exit proc status, s => (exitProcess proc status s).map Prod.snd
  | .reparent dying newParent, s => reparentChildren dying newParent s
  | .waitpid proc target noHang, s => (waitRound proc target noHang s).map Prod.snd
  | .reapInit, s => reapZombiesOfInit s

/-- What the callers see to: `kalloc` returns memory that is not in use, calls are made for processes
that exist, a parent has not exited, and children go to another process that has not exited either,
or to init. -/
def Allowed (s : State) : Call → Prop
  | .create mem _ parent => (∀ a, mem = some a → s.live a = false) ∧
      ∀ p, parent = some p → s.live p = true ∧ (s.proc p).state ≠ .zombie
  | .exit proc _ => s.live proc = true
  | .reparent dying newParent => s.live dying = true ∧ s.live newParent = true ∧ dying ≠ newParent ∧
      ((s.proc newParent).state ≠ .zombie ∨ (s.proc newParent).pid = 0)
  | .waitpid proc _ _ => s.live proc = true
  | .reapInit => True

inductive Run (s₀ : State) : State → Prop
  | start : Run s₀ s₀
  | step {s s' : State} {c : Call} (hrun : Run s₀ s) (hc : Allowed s c) (h : exec c s = some s') : Run s₀ s'

end Tori.Proc
