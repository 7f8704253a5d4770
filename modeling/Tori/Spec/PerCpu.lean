import Mathlib.Logic.Function.Basic
import Mathlib.Data.Nat.Notation

/-! The stacks on which a CPU enters the kernel (`arch/x86_64/gdt.cpp`, and `set_current_task` of `kernel/task.cpp`). A CPU
has an index in the CPU list and a LAPIC id: `load_tss` is given the index, `set_current_task` goes by the id.
`bootStack i` is the end of the stack inside the block `percpu[i]`. -/

namespace Tori.PerCpu

/-- `CONFIG_MAX_CPUS`. -/
def maxCpus : ℕ := 128

/-- `rsp0` is `tss.rsp[0]`. -/
structure PerCPU where
  syscallRsp : ℕ
  rsp0 : ℕ

/-- `stackTop` is `stack.top`, 0 for null. -/
structure Task where
  stackTop : ℕ

/-- `gsBase i` is the index of the block that the GS base of CPU `i` points to. -/
structure State where
  percpu : ℕ → PerCPU
  currentTasks : ℕ → Option Task
  gsBase : ℕ → ℕ

variable (bootStack : ℕ → ℕ)

/-- The zeroed globals after the loop of `init_gdt`: `setup_percpu` and `init_tss` for every block. -/
def initGdt : State :=
  ⟨fun i => if i < maxCpus then ⟨bootStack i, bootStack i⟩ else ⟨0, 0⟩, fun _ => none, fun _ => 0⟩

/-- `load_tss(cpuIndex)` on CPU `cpu`. -/
def loadTss (cpu cpuIndex : ℕ) (s : State) : State :=
  if cpuIndex ≥ maxCpus then s else { s with gsBase := Function.update s.gsBase cpu cpuIndex }

def setKernelEntryStack (cpuIndex stackTop : ℕ) (s : State) : State :=
  if cpuIndex ≥ maxCpus then s
  else
    let top := if stackTop = 0 then bootStack cpuIndex else stackTop
    { s with percpu := Function.update s.percpu cpuIndex ⟨top, top⟩ }

def stackTop : Option Task → ℕ
  | none => 0
  | some task => task.stackTop

/-- On the CPU whose `lapic::id()` is `lapicId`. -/
def setCurrentTask (lapicId : ℕ) (task : Option Task) (s : State) : State :=
  if lapicId < maxCpus then
    setKernelEntryStack bootStack lapicId (stackTop task)
      { s with currentTasks := Function.update s.currentTasks lapicId task }
  else s

/-! ### Runs -/

/-- The first `n` CPUs of the list are set up. -/
def setUp : ℕ → State
  | 0 => initGdt bootStack
  | n + 1 => loadTss n n (setUp n)

/-- The states after calls of `set_current_task` on CPUs with the LAPIC ids `ids`. -/
inductive Reached (ids : List ℕ) : State → Prop
  | start : Reached ids (setUp bootStack ids.length)
  | call {s : State} {i l : ℕ} (h : Reached ids s) (hcpu : ids[i]? = some l) (task : Option Task) :
      Reached ids (setCurrentTask bootStack l task s)

/-- CPU `i` with LAPIC id `l` enters the kernel on the stack of its current task. A task without a stack uses the one of
the CPU's block. -/
def Follows (i l : ℕ) (s : State) : Prop :=
  let top := if stackTop (s.currentTasks l) = 0 then bootStack i else stackTop (s.currentTasks l)
  s.percpu (s.gsBase i) = ⟨top, top⟩

end Tori.PerCpu
