import Tori.Spec.Overlay

/-! Runs of file-system calls: the functions of `vfs.cpp`, the vnode operations called directly,
and what `process_spawn`, `sys_fork` and `sys_exit` do to vnodes and descriptor tables. -/

namespace Tori.Fs

open Vfs

inductive FsType where
  | ramfs | overlayfs
  deriving DecidableEq

/-- Descriptor tables are indexed by process; table 0 is the kernel's. -/
structure Sys where
  table : Table Addr
  procs : Finset ℕ
  fds : ℕ → FdTable Addr
  state : State

inductive Call where
  | resolve (base : Option Addr) (path : Str)
  | mkdir (base : Option Addr) (path : Str)
  | openPath (q : ℕ) (base : Option Addr) (path : Str) (flags : BitVec 32)
  | close (q : ℕ) (fd : ℤ)
  | read (q : ℕ) (fd : ℤ) (buf : ℕ → UInt8) (size : ℕ)
  | write (q : ℕ) (fd : ℤ) (buf : ℕ → UInt8) (size : ℕ)
  | readdir (q : ℕ) (fd : ℤ)
  | stat (q : ℕ) (fd : ℤ)
  | seek (q : ℕ) (fd offset whence : ℤ)
  | mount (fs : FsType) (target : Option Addr)
  | unmount (root : Addr)
  | setRoot (root : Addr)
  | nodeLookup (dir : Addr) (name : Str)
  | nodeCreate (dir : Addr) (name : Str)
  | nodeMkdir (dir : Addr) (name : Str)
  | nodeRmdir (dir : Addr) (name : Str)
  | nodeUnlink (dir : Addr) (name : Str)
  | nodeRead (node : Addr) (offset : ℕ) (buf : ℕ → UInt8) (size : ℕ)
  | nodeWrite (node : Addr) (offset : ℕ) (buf : ℕ → UInt8) (size : ℕ)
  | nodeReaddir (dir : Addr) (offset : ℕ)
  | spawn (path : Str) (child : Option ℕ)
  | fork (parent child : ℕ)
  | exit (q : ℕ)

variable (A : Allocator) (g : Layers)

def mountFs : FsType → State → Except Err Addr × State
  | .ramfs => ramfsMount A
  | .overlayfs => overlayMount A g

def unmountFs : FsType → Addr → State → State
  | .ramfs => ramfsUnmount
  | .overlayfs => overlayUnmount g

/-- The descriptors of a zero-initialised process. -/
def noFds : FdTable Addr := fun _ => ⟨none, 0, 0, false⟩

/-- What `process_spawn` does to vnodes: the vnode that `resolve` returned loses a reference.
`child` is the process it has created, if it got that far. -/
def spawn (path : Str) (child : Option ℕ) (y : Sys) : Sys :=
  match resolve (fsOps A g) y.table none path y.state with
  | (.error _, s) => { y with state := s }
  | (.ok file, s) =>
    let s := (fsOps A g).unrefOpt file s
    match child with
    | none => { y with state := s }
    | some c => { y with state := s, procs := insert c y.procs, fds := Function.update y.fds c noFds }

def exec : Call → Sys → Sys
  | .resolve base path, y => { y with state := (resolve (fsOps A g) y.table base path y.state).2 }
  | .mkdir base path, y => { y with state := (mkdir (fsOps A g) y.table base path y.state).2 }
  | .openPath q base path flags, y =>
    let (_, fds, s) := openPath (fsOps A g) y.table base path flags (y.fds q) y.state
    { y with fds := Function.update y.fds q fds, state := s }
  | .close q fd, y =>
    let (_, fds, s) := close (fsOps A g) fd (y.fds q) y.state
    { y with fds := Function.update y.fds q fds, state := s }
  | .read q fd buf size, y =>
    let (_, fds, s) := read (fsOps A g) fd buf size (y.fds q) y.state
    { y with fds := Function.update y.fds q fds, state := s }
  | .write q fd buf size, y =>
    let (_, fds, s) := write (fsOps A g) fd buf size (y.fds q) y.state
    { y with fds := Function.update y.fds q fds, state := s }
  | .readdir q fd, y =>
    let (_, fds, s) := readdir (fsOps A g) fd (y.fds q) y.state
    { y with fds := Function.update y.fds q fds, state := s }
  | .stat q fd, y => { y with state := (stat (fsOps A g) fd (y.fds q) y.state).2 }
  | .seek q fd offset whence, y =>
    let (_, fds, s) := seek (fsOps A g) fd offset whence (y.fds q) y.state
    { y with fds := Function.update y.fds q fds, state := s }
  | .mount fs target, y =>
    let (_, t, s) := mount (fsOps A g) (mountFs A g fs) (unmountFs g fs) target y.table y.state
    { y with table := t, state := s }
  | .unmount root, y => { y with table := (unmount root y.table).2 }
  | .setRoot root, y => { y with table := (setRoot root y.table).2 }
  | .nodeLookup dir name, y => { y with state := ((fsOps A g).lookup dir name y.state).2 }
  | .nodeCreate dir name, y => { y with state := ((fsOps A g).create dir name y.state).2 }
  | .nodeMkdir dir name, y => { y with state := ((fsOps A g).mkdir dir name y.state).2 }
  | .nodeRmdir dir name, y => { y with state := (nodeRmdir g dir name y.state).2 }
  | .nodeUnlink dir name, y => { y with state := (nodeUnlink A g dir name y.state).2 }
  | .nodeRead node offset buf size, y => { y with state := ((fsOps A g).read node offset buf size y.state).2 }
  | .nodeWrite node offset buf size, y => { y with state := ((fsOps A g).write node offset buf size y.state).2 }
  | .nodeReaddir dir offset, y => { y with state := ((fsOps A g).readdir dir offset y.state).2 }
  | .spawn path child, y => spawn A g path child y
  | .fork parent child, y =>
    { y with procs := insert child y.procs, fds := Function.update y.fds child (y.fds parent) }
  | .exit _, y => y

/-- A run from `y₀` of calls that satisfy `allowed`. -/
inductive Run (allowed : Sys → Call → Prop) (y₀ : Sys) : Sys → Prop
  | start : Run allowed y₀ y₀
  | step {y : Sys} {c : Call} (hrun : Run allowed y₀ y) (hc : allowed y c) : Run allowed y₀ (exec A g c y)

/-- What one allowed call keeps, a whole run keeps. -/
theorem Run.invariant {A : Allocator} {g : Layers} {allowed : Sys → Call → Prop} {P : Sys → Prop} {y₀ y : Sys}
    (hrun : Run A g allowed y₀ y) (h₀ : P y₀) (hstep : ∀ y c, P y → allowed y c → P (exec A g c y)) : P y := by
  induction hrun with
  | start => exact h₀
  | step _ hc ih => exact hstep _ _ ih hc

/-! ### A small system -/

/-- Addresses in order of the calls, and no shortage. -/
def bump : Allocator where
  vnode n live := if live (n + 2) then none else some (n + 2)
  fresh n live a h := by
    by_cases hl : live (n + 2) = true
    · simp [hl] at h
    · simp only [hl, Bool.false_eq_true, if_false, Option.some.injEq] at h
      rw [← h]
      simpa using hl
  block _ := true
  page _ := some fun _ => 0

/-- An empty RamFS, vnode 1, is the root; there is no layer. -/
def rootOnly : Sys where
  table := ⟨fun _ => none, some 1, true⟩
  procs := {0}
  fds := fun _ => noFds
  state := ⟨fun _ => ⟨.directory, .dir ⟨[], 0⟩, 1, none⟩, fun a => a = 1, false, 0⟩

def noLayers : Layers := ⟨fun _ => ⟨none, false⟩, 1, by decide, by decide⟩

end Tori.Fs
