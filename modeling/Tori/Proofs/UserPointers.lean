import Tori.Sanity.FileBuffers
import Tori.Sanity.Machine

/-! Which memory a system call touches through the pointers in its registers. No handler compares a pointer with
`user_limit`: `sys_write` checks for a wrap, the path handlers and `sys_waitpid` for null, `sys_read` for nothing. -/

namespace Tori.Syscall

open Vfs Proc Kernel Vmm

variable {σ V : Type} {ops : FileOps σ V} {sv : Services σ V} {f : SyscallFrame} {s : Sys σ V} {user : ℕ → UInt8}
  {p n i : ℕ}

/-! ### Ranges -/

/-- How many bytes `copy_string_from_user` reads: up to the first NUL, and at most 255. -/
def stringSpan (user : ℕ → UInt8) (src : ℕ) : ℕ :=
  min (((List.range' 0 255).takeWhile fun j => user (addrAt src j) ≠ 0).length + 1) 255

/-- A null pointer, or a string that ends in user space. -/
def UserPath (user : ℕ → UInt8) (src : ℕ) : Prop := src = 0 ∨ src + stringSpan user src ≤ userLimit + 1

/-- A process that has opened nothing; `sv` is never called. -/
def freshProcess : Sys Fs.State Fs.Addr where
  user := fun _ => 0
  hasThread := true
  proc := some 1
  table := Fs.rootOnly.table
  fds := Fs.noFds
  fs := Fs.rootOnly.state
  procs := ⟨fun _ => .zero, fun _ => false, none, fun _ => 0, 0, false⟩
  line := []
  keys := []

def noServices : Services Fs.State Fs.Addr := ⟨fun s => (none, s), fun _ s => (none, s), fun _ s => (none, s), fun _ s => (none, s)⟩

def registers (rdi rsi rdx : ℕ) : SyscallFrame := ⟨0, 0, rdi, rsi, rdx, 0, 0, 0, 0, 0, 0, 0, 0, 0, 0, 0⟩

end Tori.Syscall
