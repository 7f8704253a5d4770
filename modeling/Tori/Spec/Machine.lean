import Tori.Spec.Vmm
import Tori.Spec.Wait

/-! The system calls that make, replace and end a process, over page tables, processes, kernel stacks and
the registers saved on them. The direct map is a bijection, so a kernel stack is at its physical address.
`kalloc` is represented by its answers; the pages it takes for itself are not in this state. -/

namespace Tori.Kernel

open Loop Vmm Proc

def ePerm : ℤ := 1
def eNoEntry : ℤ := 2
def eNoMem : ℤ := 12

/-! ### Registers -/

structure SyscallFrame where
  userRip : ℕ
  userRflags : ℕ
  rdi : ℕ
  rsi : ℕ
  rdx : ℕ
  r10 : ℕ
  r8 : ℕ
  r9 : ℕ
  rbx : ℕ
  rbp : ℕ
  r12 : ℕ
  r13 : ℕ
  r14 : ℕ
  r15 : ℕ
  rax : ℕ
  userRsp : ℕ

def SyscallFrame.words (f : SyscallFrame) : List ℕ :=
  [f.userRip, f.userRflags, f.rdi, f.rsi, f.rdx, f.r10, f.r8, f.r9, f.rbx, f.rbp, f.r12, f.r13, f.r14, f.r15, f.rax,
    f.userRsp]

/-- `sizeof(SyscallFrame)` -/
def frameSize : ℕ := 128

/-- `*(--sp) = v` -/
def push (v : ℕ) (st : ℕ × Mem) : ℕ × Mem := (st.1 - 8, st.2.store64 (st.1 - 8) v)

def pushAll (vs : List ℕ) (st : ℕ × Mem) : ℕ × Mem := vs.foldl (fun st v => push v st) st

/-- The registers that the pops of `fork_return` restore. -/
def loadFrame (m : Mem) (a : ℕ) : SyscallFrame where
  userRip := m.load64 a
  userRflags := m.load64 (a + 8)
  rdi := m.load64 (a + 16)
  rsi := m.load64 (a + 24)
  rdx := m.load64 (a + 32)
  r10 := m.load64 (a + 40)
  r8 := m.load64 (a + 48)
  r9 := m.load64 (a + 56)
  rbx := m.load64 (a + 64)
  rbp := m.load64 (a + 72)
  r12 := m.load64 (a + 80)
  r13 := m.load64 (a + 88)
  r14 := m.load64 (a + 96)
  r15 := m.load64 (a + 104)
  rax := m.load64 (a + 112)
  userRsp := m.load64 (a + 120)

/-- A structure copy: the words of `f` at `a` and up. -/
def storeFrame (m : Mem) (a : ℕ) (f : SyscallFrame) : Mem := (pushAll f.words.reverse (a + frameSize, m)).2

/-- The end of `context_switch` and what it returns to: six registers and the return address are popped,
and `fork_return` restores the rest. -/
def resumeUser (forkReturn : ℕ) (m : Mem) (context : ℕ) : Option SyscallFrame :=
  if m.load64 (context + 48) = forkReturn then some (loadFrame m (context + 56)) else none

/-- The end of `syscall_entry`: the result goes to the frame, and the frame to the registers. -/
def syscallReturn (ret : ℤ) (frame : ℕ) (m : Mem) : SyscallFrame :=
  loadFrame (m.store64 (frame + 112) (ret % 2 ^ 64).toNat) frame

/-! ### The state -/

/-- `Thread`, with the fields of its task that are read here. -/
structure Thread where
  process : Addr
  userRip : ℕ
  userRsp : ℕ
  userRsp0 : ℕ
  stackBase : ℕ
  stackTop : ℕ
  physicalPage : ℕ
  context : ℕ
  cr3 : ℕ

/-- `gs8` is the user stack pointer that `syscall_entry` saves at `gs:[8]`; the last two fields are the
addresses of the two assembly routines. -/
structure Machine where
  world : World
  procs : Proc.State
  thread : Addr → Thread
  gs8 : ℕ
  cr3 : ℕ
  threadTrampoline : ℕ
  forkReturn : ℕ

def stackPages : ℕ := 4
def stackSize : ℕ := stackPages * 4096

/-! ### Fork -/

/-- `mem` is the answer of `kalloc`. -/
def threadCreate (mem : Option Addr) (process : Addr) (entry stackTop : ℕ) (s : Machine) : Option Addr × Machine :=
  match mem with
  | none => (none, s)
  | some thread =>
    let (stackPhys, pmm) := Pmm.allocPages stackPages s.world.pmm
    if stackPhys = Pmm.invalidPhysicalAddress then (none, { s with world := { s.world with pmm := pmm } })
    else
      let top := stackPhys + stackSize
      let m := forUp (fun i m => m.store64 (stackPhys + 8 * i) 0) (stackSize / 8) 0 s.world.mem
      let (sp, m) := pushAll [s.threadTrampoline, 0, 0, 0, 0, 0, 0] (top, m)
      (some thread, { s with
        world := { s.world with pmm := pmm, mem := m }
        thread := Function.update s.thread thread
          { process := process, userRip := entry, userRsp := stackTop, userRsp0 := top, stackBase := stackPhys,
            stackTop := top, physicalPage := stackPhys, context := sp, cr3 := (s.procs.proc process).pml4Phys } })

/-- `sys_fork` of `parent`, whose registers are saved at `frame`; `mem` and `threadMem` are the answers of
`kalloc`. -/
def sysFork (parent : Addr) (frame : ℕ) (mem threadMem : Option Addr) (s : Machine) : ℤ × Machine :=
  let (childPml4, w) := cloneAddressSpace (s.procs.proc parent).pml4Phys s.world
  if childPml4 = 0 then (-eNoMem, { s with world := w })
  else
    match processCreate mem childPml4 (some parent) s.procs with
    | (none, procs) => (-eNoMem, { s with
        world := freeAddressSpace childPml4 w
        procs := procs })
    | (some child, procs) =>
      let procs := procs.modify child fun c => { c with fdTable := (procs.proc parent).fdTable }
      let userRsp := s.gs8
      match threadCreate threadMem child (w.mem.load64 frame) userRsp { s with world := w, procs := procs } with
      | (none, s) => (-eNoMem, { s with
          world := freeAddressSpace childPml4 s.world
          procs := s.procs.modify child fun c => { c with state := .dead } })
      | (some t, s) =>
        let sp := (s.thread t).stackTop - frameSize
        let childFrame := { loadFrame s.world.mem frame with rax := 0, userRsp := userRsp }
        let m := storeFrame s.world.mem sp childFrame
        let (sp, m) := pushAll [s.forkReturn, 0, 0, 0, 0, 0, 0] (sp, m)
        ((s.procs.proc child).pid, { s with
          world := { s.world with mem := m }
          thread := Function.update s.thread t { s.thread t with context := sp }
          procs := s.procs.modify child fun c => { c with threadList := some t } })

/-! ### Exec -/

structure ElfLoadResult where
  entry : ℕ
  stackTop : ℕ
  brkBase : ℕ

/-- `sys_exec` of `thread`. `file` is what `elf64_load` does with the file at the path, when there is one: its
return value, its result and the memory after it, from the new page table and the memory before. The last
component lists the states after `free_address_space` of the old tables. -/
def sysExec (thread : Addr) (file : Option (ℕ → World → ℤ × ElfLoadResult × World)) (s : Machine) :
    ℤ × Machine × List Machine :=
  let proc := (s.thread thread).process
  match file with
  | none => (-eNoEntry, s, [])
  | some elf64Load =>
    let (newPml4, w) := createUserPml4 s.world
    if newPml4 = 0 then (-eNoMem, { s with world := w }, [])
    else
      let (err, loadResult, w) := elf64Load newPml4 w
      if err < 0 then (err, { s with world := freeAddressSpace newPml4 w }, [])
      else
        let s := { s with world := freeAddressSpace (s.procs.proc proc).pml4Phys w }
        let s₁ := { s with procs := s.procs.modify proc fun p => { p with
          pml4Phys := newPml4, brk := loadResult.brkBase, brkBase := loadResult.brkBase } }
        let s₂ := { s₁ with thread := Function.update s₁.thread thread { s₁.thread thread with
          userRip := loadResult.entry, userRsp := loadResult.stackTop, cr3 := newPml4 } }
        (0, s₂, [s, s₁, s₂])

/-! ### Exit and reaping -/

def sysExit (proc : Addr) (status : ℤ) (s : Machine) : Option Machine :=
  (exitProcess proc status s.procs).map fun (_, procs) => { s with procs := procs }

/-- `reap_process`, with the address space. -/
def reap (proc : Addr) (s : Machine) : Machine :=
  if (s.procs.proc proc).state ≠ .zombie then s
  else { s with
    world := freeAddressSpace (s.procs.proc proc).pml4Phys s.world
    procs := reapProcess proc s.procs }

/-- `sys_waitpid` with a null status pointer, when it finds a zombie to reap. -/
def sysWaitpid (proc : Addr) (target : ℤ) (s : Machine) : Option (ℕ × Machine) :=
  match findZombie s.procs target (maxPids + 1) (s.procs.proc proc).childHead with
  | some (some zombie) => some ((s.procs.proc zombie).pid, reap zombie s)
  | _ => none

end Tori.Kernel
