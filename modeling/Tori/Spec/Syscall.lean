import Tori.Spec.FsRun
import Tori.Spec.Machine

/-! `handle_syscall` and what its handlers do with the pointers in the saved registers: each handler lists
the addresses it reads or writes through them. -/

namespace Tori.Syscall

open Vfs Proc Kernel

variable {σ V : Type}

def eChild : ℤ := 10
def eInvalid : ℤ := 22

/-- `static_cast<int>` of a register. -/
def toInt (r : ℕ) : ℤ := (BitVec.ofNat 32 r).toInt

/-- The address of `p[i]`. -/
def addrAt (p i : ℕ) : ℕ := (p + i) % 2 ^ 64

/-- The return value of a failed call of `vfs.cpp`; a fault does not return. -/
def errCode : Err → Option ℤ
  | .eNotFound => some (-1)
  | .eExists => some (-2)
  | .eNotDir => some (-3)
  | .eIsDir => some (-4)
  | .eInvalid => some (-5)
  | .eNoSpace => some (-6)
  | .eIo => some (-7)
  | .eBadFd => some (-8)
  | .eNotEmpty => some (-9)
  | .fault => none

/-! ### Files -/

/-- The vnode operations with the positions of the buffer that `read` stores to and `write` loads. -/
structure FileOps (σ V : Type) extends VnodeOps σ V where
  readTouched : V → ℕ → ℕ → σ → List ℕ
  writeTouched : V → ℕ → ℕ → σ → List ℕ
  read_lt : ∀ v off size s, ∀ i ∈ readTouched v off size s, i < size
  write_lt : ∀ v off size s, ∀ i ∈ writeTouched v off size s, i < size
  read_same : ∀ v off buf size s n buf' s', read v off buf size s = (.ok (n, buf'), s') →
    ∀ i ∉ readTouched v off size s, buf' i = buf i
  write_congr : ∀ v off buf buf' size s, (∀ i ∈ writeTouched v off size s, buf' i = buf i) →
    write v off buf' size s = write v off buf size s
  write_all : ∀ v off buf size s n s', write v off buf size s = (.ok n, s') →
    ∀ i < size, i ∈ writeTouched v off size s

/-- The regular file behind a descriptor. -/
def openFile (ops : FileOps σ V) (fd : ℤ) (fds : FdTable V) (s : σ) : Option (V × ℕ) := do
  let i ← descriptor fds fd
  let v ← (fds i).vnode
  if ops.type v s = .file then some (v, (fds i).offset) else none

/-- The positions that `vfs::read` stores to. -/
def vfsReadTouched (ops : FileOps σ V) (fd : ℤ) (size : ℕ) (fds : FdTable V) (s : σ) : List ℕ :=
  match openFile ops fd fds s with
  | none => []
  | some (v, off) => ops.readTouched v off size s

/-- The positions that `vfs::write` loads. -/
def vfsWriteTouched (ops : FileOps σ V) (fd : ℤ) (size : ℕ) (fds : FdTable V) (s : σ) : List ℕ :=
  match openFile ops fd fds s with
  | none => []
  | some (v, off) => ops.writeTouched v off size s

/-! ### The terminal -/

/-- `terminal::put_char` on the line so far, and whether the line is complete. -/
def putChar (c : UInt8) (line : Str) : Str × Bool :=
  if c = 8 then (line.dropLast, false)
  else if c = 10 then (line, true)
  else if c < 0x20 ∨ c > 0x7E then (line, false)
  else if line.length < 255 then (line ++ [c], false)
  else (line, false)

/-- The rounds of `terminal::read_line` over the keys that arrive, until there is a line. -/
def readLine : Str → Str → Option (Str × Str)
  | [], _ => none
  | c :: keys, line =>
    match putChar c line with
    | (line, true) => some (line, keys)
    | (line, false) => readLine keys line

/-- How much of a line is copied to a buffer of `max` bytes; a NUL follows. -/
def lineLength (line : Str) (max : ℕ) : ℕ := if line.length < max then line.length else max - 1

/-! ### The state -/

/-- `user` is memory as the current address space maps it, `proc` is `thread->process`, `fds` is the table that
`get_current_fd_table` returns. `line` is the terminal's line buffer, `keys` are the keys to come. -/
structure Sys (σ V : Type) where
  user : ℕ → UInt8
  hasThread : Bool
  proc : Option Addr
  table : Table V
  fds : FdTable V
  fs : σ
  procs : Proc.State
  line : Str
  keys : Str

/-- `ret` is `none` when the call does not return: it blocks, ends the thread or faults. -/
structure Answer (σ V : Type) where
  ret : Option ℤ
  touched : List ℕ
  sys : Sys σ V

/-- The handlers, or the rest of a handler, that take no pointer. -/
structure Services (σ V : Type) where
  fork : Sys σ V → Option ℤ × Sys σ V
  exec : Str → Sys σ V → Option ℤ × Sys σ V
  spawn : Str → Sys σ V → Option ℤ × Sys σ V
  brk : ℕ → Sys σ V → Option ℤ × Sys σ V

def buffer (user : ℕ → UInt8) (p : ℕ) : ℕ → UInt8 := fun i => user (addrAt p i)

/-- The first `n` bytes at `p` become those of `buf`. -/
def storeBuffer (user : ℕ → UInt8) (p n : ℕ) (buf : ℕ → UInt8) : ℕ → UInt8 := fun a =>
  let i := (a + 2 ^ 64 - p) % 2 ^ 64
  if a < 2 ^ 64 ∧ i < n then buf i else user a

/-- The loop of `copy_string_from_user`, with the addresses it reads. -/
def copyString (user : ℕ → UInt8) (src : ℕ) : ℕ → ℕ → Str × List ℕ
  | 0, _ => ([], [])
  | n + 1, i =>
    let c := user (addrAt src i)
    if c = 0 then ([], [addrAt src i])
    else
      let (rest, touched) := copyString user src n (i + 1)
      (c :: rest, addrAt src i :: touched)

def copyStringFromUser (user : ℕ → UInt8) (src maxLen : ℕ) : Except ℤ Str × List ℕ :=
  if src = 0 then (.error (-eInvalid), [])
  else
    let (str, touched) := copyString user src (maxLen - 1) 0
    (.ok str, touched)

/-! ### The handlers -/

def sysWrite (ops : FileOps σ V) (f : SyscallFrame) (s : Sys σ V) : Answer σ V :=
  let fd := toInt f.rdi
  let buf := f.rsi
  let count := f.rdx
  let bufEnd := (buf + count) % 2 ^ 64
  if bufEnd < buf ∨ count = 0 then ⟨some (-eInvalid), [], s⟩
  else
    let touched := (vfsWriteTouched ops fd count s.fds s.fs).map (addrAt buf)
    match write ops.toVnodeOps fd (buffer s.user buf) count s.fds s.fs with
    | (.ok written, fds, fs) => ⟨some written, touched, { s with fds := fds, fs := fs }⟩
    | (.error .fault, fds, fs) => ⟨none, touched, { s with fds := fds, fs := fs }⟩
    | (.error _, fds, fs) =>
      ⟨some count, touched ++ (List.range count).map (addrAt buf), { s with fds := fds, fs := fs }⟩

def sysRead (ops : FileOps σ V) (f : SyscallFrame) (s : Sys σ V) : Answer σ V :=
  match s.proc with
  | none => ⟨some (-ePerm), [], s⟩
  | some _ =>
    let fd := toInt f.rdi
    let buf := f.rsi
    let count := f.rdx
    if count = 0 then ⟨some 0, [], s⟩
    else if fd = 0 then
      match readLine s.keys s.line with
      | none => ⟨none, [], s⟩
      | some (line, keys) =>
        let len := lineLength line count
        ⟨some len, (List.range (len + 1)).map (addrAt buf), { s with
          user := storeBuffer s.user buf (len + 1) fun i => if i < len then line.getD i 0 else 0
          line := []
          keys := keys }⟩
    else
      let touched := (vfsReadTouched ops fd count s.fds s.fs).map (addrAt buf)
      match read ops.toVnodeOps fd (buffer s.user buf) count s.fds s.fs with
      | (.ok (n, data), fds, fs) =>
        ⟨some n, touched, { s with user := storeBuffer s.user buf count data, fds := fds, fs := fs }⟩
      | (.error e, fds, fs) => ⟨errCode e, touched, { s with fds := fds, fs := fs }⟩

/-- The handlers that take a path: the string is copied to a buffer of 256 bytes. -/
def withPath (src : ℕ) (s : Sys σ V) (k : Str → Option ℤ × Sys σ V) : Answer σ V :=
  match copyStringFromUser s.user src 256 with
  | (.error e, touched) => ⟨some e, touched, s⟩
  | (.ok path, touched) => ⟨(k path).1, touched, (k path).2⟩

def sysOpen [DecidableEq V] (ops : FileOps σ V) (f : SyscallFrame) (s : Sys σ V) : Answer σ V :=
  withPath f.rdi s fun path =>
    match openPath ops.toVnodeOps s.table none path (BitVec.ofNat 32 f.rsi) s.fds s.fs with
    | (.ok fd, fds, fs) => (some (fd.val : ℤ), { s with fds := fds, fs := fs })
    | (.error e, fds, fs) => (errCode e, { s with fds := fds, fs := fs })

def sysExec (sv : Services σ V) (f : SyscallFrame) (s : Sys σ V) : Answer σ V :=
  match s.proc with
  | none => ⟨some (-ePerm), [], s⟩
  | some _ => withPath f.rdi s fun path => sv.exec path s

def sysSpawn (sv : Services σ V) (f : SyscallFrame) (s : Sys σ V) : Answer σ V :=
  withPath f.rdi s fun path => sv.spawn path s

/-- The four bytes of an `int`. -/
def intByte (v : ℤ) (i : ℕ) : UInt8 := UInt8.ofBitVec ((BitVec.ofInt 32 v).extractLsb' (8 * i) 8)

/-- One round of `sys_waitpid`; a call that blocks makes another round when it is woken. -/
def sysWaitpid (f : SyscallFrame) (s : Sys σ V) : Answer σ V :=
  match s.proc with
  | none => ⟨some (-ePerm), [], s⟩
  | some proc =>
    let targetPid := toInt f.rdi
    let statusPtr := f.rsi
    match waitRound proc targetPid (f.rdx % 2 = 1) s.procs with
    | none => ⟨none, [], s⟩
    | some (.reaped pid status, procs) =>
      if statusPtr = 0 then ⟨some pid, [], { s with procs := procs }⟩
      else ⟨some pid, (List.range 4).map (addrAt statusPtr),
        { s with user := storeBuffer s.user statusPtr 4 (intByte status), procs := procs }⟩
    | some (.noChild, procs) => ⟨some (-eChild), [], { s with procs := procs }⟩
    | some (.noHang, procs) => ⟨some 0, [], { s with procs := procs }⟩
    | some (.block, procs) => ⟨none, [], { s with procs := procs }⟩

def sysExit (f : SyscallFrame) (s : Sys σ V) : Answer σ V :=
  match s.proc with
  | none => ⟨none, [], s⟩
  | some proc =>
    match exitProcess proc (toInt f.rdi) s.procs with
    | none => ⟨none, [], s⟩
    | some (_, procs) => ⟨none, [], { s with procs := procs }⟩

def sysGetpid (s : Sys σ V) : ℤ :=
  match s.proc with
  | none => 0
  | some proc => (s.procs.proc proc).pid

def sysGetppid (s : Sys σ V) : ℤ :=
  match s.proc.bind fun proc => (s.procs.proc proc).parent with
  | none => 0
  | some parent => (s.procs.proc parent).pid

def sysClose (ops : FileOps σ V) (f : SyscallFrame) (s : Sys σ V) : Answer σ V :=
  match close ops.toVnodeOps (toInt f.rdi) s.fds s.fs with
  | (.ok (), fds, fs) => ⟨some 0, [], { s with fds := fds, fs := fs }⟩
  | (.error e, fds, fs) => ⟨errCode e, [], { s with fds := fds, fs := fs }⟩

def sysLseek (ops : FileOps σ V) (f : SyscallFrame) (s : Sys σ V) : Answer σ V :=
  match seek ops.toVnodeOps (toInt f.rdi) (BitVec.ofNat 64 f.rsi).toInt (toInt f.rdx) s.fds s.fs with
  | (.ok pos, fds, fs) => ⟨some pos, [], { s with fds := fds, fs := fs }⟩
  | (.error e, fds, fs) => ⟨errCode e, [], { s with fds := fds, fs := fs }⟩

def sysBrk (sv : Services σ V) (f : SyscallFrame) (s : Sys σ V) : Answer σ V :=
  match s.proc with
  | none => ⟨some (-ePerm), [], s⟩
  | some _ => ⟨(sv.brk f.rdi s).1, [], (sv.brk f.rdi s).2⟩

def handleSyscall [DecidableEq V] (ops : FileOps σ V) (sv : Services σ V) (number : ℕ) (f : SyscallFrame)
    (s : Sys σ V) : Answer σ V :=
  if !s.hasThread then ⟨some (-ePerm), [], s⟩
  else
    match number with
    | 0 => sysWrite ops f s
    | 1 => sysExit f s
    | 2 => ⟨(sv.fork s).1, [], (sv.fork s).2⟩
    | 3 => sysExec sv f s
    | 4 => sysSpawn sv f s
    | 5 => ⟨some (sysGetpid s), [], s⟩
    | 6 => sysWaitpid f s
    | 7 => ⟨some (sysGetppid s), [], s⟩
    | 8 => sysRead ops f s
    | 9 => sysOpen ops f s
    | 10 => sysClose ops f s
    | 11 => sysLseek ops f s
    | 12 => sysBrk sv f s
    | _ => ⟨some (-eInvalid), [], s⟩

end Tori.Syscall
