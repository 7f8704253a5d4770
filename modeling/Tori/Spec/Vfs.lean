import Mathlib.Tactic

/-! The file-system switch (`kernel/src/fs/vfs.cpp`): path resolution, the mount table and file
descriptors, over the vnode operations of a file system. `σ` is the state of the file system, `V`
its vnodes; a vnode pointer that may be null is an `Option`. A C string is the list of the bytes
before its terminating NUL. `fault` is no error code: it stands for the dereference of a null
pointer and for a store past the end of a local array. -/

namespace Tori.Vfs

abbrev Str : Type := List UInt8

def slash : UInt8 := 47

inductive Err where
  | eNotFound | eExists | eNotDir | eIsDir | eInvalid | eNoSpace | eIo | eBadFd | eNotEmpty | fault
  deriving DecidableEq, Repr

inductive VnodeType where
  | file | directory
  deriving DecidableEq, Repr

structure Stat where
  type : VnodeType
  size : ℕ

structure Dirent where
  name : Str
  type : VnodeType

/-- What `vfs.cpp` does with a vnode. A buffer is the function of its bytes. -/
structure VnodeOps (σ V : Type) where
  type : V → σ → VnodeType
  lookup : V → Str → σ → Except Err V × σ
  create : V → Str → σ → Except Err V × σ
  mkdir : V → Str → σ → Except Err Unit × σ
  read : V → ℕ → (ℕ → UInt8) → ℕ → σ → Except Err (ℕ × (ℕ → UInt8)) × σ
  write : V → ℕ → (ℕ → UInt8) → ℕ → σ → Except Err ℕ × σ
  readdir : V → ℕ → σ → Except Err (Dirent × ℕ) × σ
  stat : V → σ → Except Err Stat × σ
  ref : V → σ → σ
  unref : V → σ → σ
  setMountParent : V → V → σ → σ

/-- `vnode_ref` and `vnode_unref` do nothing for a null pointer. -/
def VnodeOps.refOpt (ops : VnodeOps σ V) : Option V → σ → σ
  | none, s => s
  | some v, s => ops.ref v s

def VnodeOps.unrefOpt (ops : VnodeOps σ V) : Option V → σ → σ
  | none, s => s
  | some v, s => ops.unref v s

abbrev maxMounts : ℕ := 16
abbrev maxFds : ℕ := 256

scoped instance neZeroMaxFds : NeZero maxFds := ⟨by decide⟩

structure MountEntry (V : Type) where
  mountPoint : V
  mountedRoot : V
  deriving DecidableEq

/-- The static variables of `vfs.cpp`; an entry of the mount table that is not `used` is `none`. -/
structure Table (V : Type) where
  mountTable : Fin maxMounts → Option (MountEntry V)
  rootVnode : Option V
  initialized : Bool

structure FileDescriptor (V : Type) where
  vnode : Option V
  offset : ℕ
  flags : BitVec 32
  used : Bool

abbrev FdTable (V : Type) : Type := Fin maxFds → FileDescriptor V

variable {σ V : Type} [DecidableEq V]

def findMountByPoint (t : Table V) (point : V) : Option (Fin maxMounts) :=
  (List.finRange maxMounts).find? fun i => (t.mountTable i).any fun e => e.mountPoint = point

def findMountByRoot (t : Table V) (root : V) : Option (Fin maxMounts) :=
  (List.finRange maxMounts).find? fun i => (t.mountTable i).any fun e => e.mountedRoot = root

def findFreeMountEntry (t : Table V) : Option (Fin maxMounts) :=
  (List.finRange maxMounts).find? fun i => (t.mountTable i).isNone

def resolveMount (t : Table V) (vnode : V) : V :=
  match (findMountByPoint t vnode).bind t.mountTable with
  | some e => e.mountedRoot
  | none => vnode

/-! ### Path resolution -/

/-- `while (*p == '/') ++p` -/
def skipSlashes (p : Str) : Str := p.dropWhile (· == slash)

/-- The bytes that `while (*p != '\0' && *p != '/') ++p` passes over. -/
def component (p : Str) : Str := p.takeWhile (· != slash)

def afterComponent (p : Str) : Str := p.dropWhile (· != slash)

theorem skipSlashes_head {p : Str} {c : UInt8} {cs : Str} (h : skipSlashes p = c :: cs) : c ≠ slash := by
  induction p with
  | nil => simp [skipSlashes] at h
  | cons a p ih =>
    rw [skipSlashes, List.dropWhile_cons] at h
    split at h
    · exact ih h
    · rename_i ha
      injection h with h1 _
      subst h1
      simpa using ha

theorem afterComponent_length_lt {p : Str} {c : UInt8} {cs : Str} (h : skipSlashes p = c :: cs) :
    (afterComponent (c :: cs)).length < p.length := by
  have hc := skipSlashes_head h
  have h1 : (afterComponent (c :: cs)).length ≤ cs.length := by
    rw [afterComponent, List.dropWhile_cons_of_pos (by simpa using hc)]
    exact (List.dropWhile_sublist _).length_le
  have h2 : (c :: cs).length ≤ p.length := by
    rw [← h]
    exact (List.dropWhile_sublist _).length_le
  rw [List.length_cons] at h2
  omega

def splitAndResolve (ops : VnodeOps σ V) (t : Table V) (current : Option V) (p : Str) (s : σ) :
    Except Err (Option V) × σ :=
  match _h : skipSlashes p with
  | [] => (.ok current, s)
  | c :: cs =>
    if (component (c :: cs)).length > 255 then (.error .eInvalid, s)
    else
      match current with
      | none => (.error .fault, s)
      | some v =>
        if ops.type v s ≠ .directory then (.error .eNotDir, s)
        else
          match ops.lookup v (component (c :: cs)) s with
          | (.error e, s) => (.error e, s)
          | (.ok next, s) =>
            splitAndResolve ops t (some (resolveMount t next)) (afterComponent (c :: cs)) s
termination_by p.length
decreasing_by exact afterComponent_length_lt _h

def resolve (ops : VnodeOps σ V) (t : Table V) (base : Option V) (path : Str) (s : σ) :
    Except Err (Option V) × σ :=
  if !t.initialized then (.error .eInvalid, s)
  else if path = [] then (.ok base, s)
  else if path.head? = some slash then
    match t.rootVnode with
    | none => (.error .eNotFound, s)
    | some root =>
      if skipSlashes path = [] then (.ok (some root), s)
      else splitAndResolve ops t (some root) (skipSlashes path) s
  else splitAndResolve ops t base path s

/-! ### Creating nodes -/

/-- The position of the last `'/'`. -/
def lastSep : Str → Option ℕ
  | [] => none
  | c :: cs =>
    match lastSep cs with
    | some i => some (i + 1)
    | none => if c = slash then some 0 else none

/-- The end of `mkdir`, with the parent found. -/
def mkdirIn (ops : VnodeOps σ V) (parent : Option V) (name : Str) (s : σ) : Except Err Unit × σ :=
  match parent with
  | none => (.error .fault, s)
  | some parent =>
    if ops.type parent s ≠ .directory then (.error .eNotDir, s) else ops.mkdir parent name s

/-- `mkdir` of a path without leading slashes. -/
def mkdirBelow (ops : VnodeOps σ V) (t : Table V) (start : V) (path : Str) (s : σ) : Except Err Unit × σ :=
  match lastSep path with
  | none => mkdirIn ops (some start) path s
  | some sep =>
    if sep ≥ 256 then (.error .eInvalid, s)
    else
      match resolve ops t (some start) (path.take sep) s with
      | (.error e, s) => (.error e, s)
      | (.ok parent, s) => mkdirIn ops parent (path.drop (sep + 1)) s

def mkdir (ops : VnodeOps σ V) (t : Table V) (base : Option V) (path : Str) (s : σ) :
    Except Err Unit × σ :=
  match base with
  | none => (.error .eInvalid, s)
  | some base =>
    if !t.initialized then (.error .eInvalid, s)
    else if path.head? = some slash then
      match t.rootVnode with
      | none => (.error .eNotFound, s)
      | some root =>
        if skipSlashes path = [] then (.error .eInvalid, s)
        else mkdirBelow ops t root (skipSlashes path) s
    else mkdirBelow ops t base path s

def oCreat : BitVec 32 := 4

def findFreeFd (fds : FdTable V) : Option (Fin maxFds) :=
  (List.finRange maxFds).find? fun i => !(fds i).used

def createIn (ops : VnodeOps σ V) (parent : Option V) (name : Str) (s : σ) : Except Err V × σ :=
  match parent with
  | none => (.error .fault, s)
  | some parent => ops.create parent name s

/-- The branch of `open` for a path that was not found; `parent_path` has 256 bytes and its
length is not checked. -/
def createAt (ops : VnodeOps σ V) (t : Table V) (base : Option V) (path : Str) (s : σ) :
    Except Err V × σ :=
  match lastSep path with
  | none => createIn ops base path s
  | some sep =>
    if sep ≥ 256 then (.error .fault, s)
    else
      match resolve ops t base (path.take sep) s with
      | (.error e, s) => (.error e, s)
      | (.ok parent, s) => createIn ops parent (path.drop (sep + 1)) s

/-- What `open` does once it has the vnode. -/
def installFd (ops : VnodeOps σ V) (vnode : Option V) (flags : BitVec 32) (fds : FdTable V) (s : σ) :
    Except Err (Fin maxFds) × FdTable V × σ :=
  match findFreeFd fds with
  | none => (.error .eNoSpace, fds, s)
  | some fd =>
    (.ok fd, Function.update fds fd ⟨vnode, 0, flags, true⟩, ops.refOpt vnode s)

/-- `vfs::open`; `fds` is the descriptor table of the current process. -/
def openPath (ops : VnodeOps σ V) (t : Table V) (base : Option V) (path : Str) (flags : BitVec 32)
    (fds : FdTable V) (s : σ) : Except Err (Fin maxFds) × FdTable V × σ :=
  if !t.initialized then (.error .eInvalid, fds, s)
  else
    match resolve ops t base path s with
    | (.ok vnode, s) => installFd ops vnode flags fds s
    | (.error e, s) =>
      if e = .eNotFound ∧ flags &&& oCreat ≠ 0 then
        match createAt ops t base path s with
        | (.error e, s) => (.error e, fds, s)
        | (.ok vnode, s) => installFd ops (some vnode) flags fds s
      else (.error e, fds, s)

/-! ### Descriptors -/

/-- `fd < 0 || fd >= CONFIG_VFS_MAX_FDS` or an unused entry is `E_BAD_FD`. -/
def descriptor (fds : FdTable V) (fd : ℤ) : Option (Fin maxFds) :=
  if h : 0 ≤ fd ∧ fd < maxFds then
    let i : Fin maxFds := ⟨fd.toNat, by have := h.2; simp only [maxFds] at *; omega⟩
    if (fds i).used then some i else none
  else none

def close (ops : VnodeOps σ V) (fd : ℤ) (fds : FdTable V) (s : σ) : Except Err Unit × FdTable V × σ :=
  match descriptor fds fd with
  | none => (.error .eBadFd, fds, s)
  | some i => (.ok (), Function.update fds i { fds i with used := false }, ops.unrefOpt (fds i).vnode s)

def read (ops : VnodeOps σ V) (fd : ℤ) (buf : ℕ → UInt8) (size : ℕ) (fds : FdTable V) (s : σ) :
    Except Err (ℕ × (ℕ → UInt8)) × FdTable V × σ :=
  match descriptor fds fd with
  | none => (.error .eBadFd, fds, s)
  | some i =>
    match (fds i).vnode with
    | none => (.error .fault, fds, s)
    | some v =>
      if ops.type v s ≠ .file then (.error .eIsDir, fds, s)
      else
        match ops.read v (fds i).offset buf size s with
        | (.error e, s) => (.error e, fds, s)
        | (.ok (n, buf), s) =>
          (.ok (n, buf), Function.update fds i { fds i with offset := ((fds i).offset + n) % 2 ^ 64 }, s)

def write (ops : VnodeOps σ V) (fd : ℤ) (buf : ℕ → UInt8) (size : ℕ) (fds : FdTable V) (s : σ) :
    Except Err ℕ × FdTable V × σ :=
  match descriptor fds fd with
  | none => (.error .eBadFd, fds, s)
  | some i =>
    match (fds i).vnode with
    | none => (.error .fault, fds, s)
    | some v =>
      if ops.type v s ≠ .file then (.error .eIsDir, fds, s)
      else
        match ops.write v (fds i).offset buf size s with
        | (.error e, s) => (.error e, fds, s)
        | (.ok n, s) =>
          (.ok n, Function.update fds i { fds i with offset := ((fds i).offset + n) % 2 ^ 64 }, s)

def readdir (ops : VnodeOps σ V) (fd : ℤ) (fds : FdTable V) (s : σ) :
    Except Err Dirent × FdTable V × σ :=
  match descriptor fds fd with
  | none => (.error .eBadFd, fds, s)
  | some i =>
    match (fds i).vnode with
    | none => (.error .fault, fds, s)
    | some v =>
      if ops.type v s ≠ .directory then (.error .eNotDir, fds, s)
      else
        match ops.readdir v (fds i).offset s with
        | (.error e, s) => (.error e, fds, s)
        | (.ok (d, off), s) => (.ok d, Function.update fds i { fds i with offset := off }, s)

def stat (ops : VnodeOps σ V) (fd : ℤ) (fds : FdTable V) (s : σ) : Except Err Stat × σ :=
  match descriptor fds fd with
  | none => (.error .eBadFd, s)
  | some i =>
    match (fds i).vnode with
    | none => (.error .fault, s)
    | some v => ops.stat v s

def seek (ops : VnodeOps σ V) (fd offset whence : ℤ) (fds : FdTable V) (s : σ) :
    Except Err ℕ × FdTable V × σ :=
  match descriptor fds fd with
  | none => (.error .eBadFd, fds, s)
  | some i =>
    let move (from_ : ℕ) (s : σ) : Except Err ℕ × FdTable V × σ :=
      let pos := (((from_ : ℤ) + offset) % 2 ^ 64).toNat
      (.ok pos, Function.update fds i { fds i with offset := pos }, s)
    if whence = 0 then move 0 s
    else if whence = 1 then move (fds i).offset s
    else
      match (fds i).vnode with
      | none => (.error .fault, fds, s)
      | some v =>
        match ops.stat v s with
        | (.error e, s) => (.error e, fds, s)
        | (.ok st, s) => move st.size s

/-! ### Mounts -/

/-- `vfs::mount(fs_ops, target, out_root)`, with `mountFs` and `unmountFs` for the file system's
own `mount` and `unmount`. -/
def mount (ops : VnodeOps σ V) (mountFs : σ → Except Err V × σ) (unmountFs : V → σ → σ)
    (target : Option V) (t : Table V) (s : σ) : Except Err V × Table V × σ :=
  if !t.initialized then (.error .eInvalid, t, s)
  else
    match mountFs s with
    | (.error e, s) => (.error e, t, s)
    | (.ok newRoot, s) =>
      match target with
      | none =>
        if t.rootVnode.isSome then (.error .eExists, t, unmountFs newRoot s)
        else (.ok newRoot, { t with rootVnode := some newRoot }, s)
      | some target =>
        match findFreeMountEntry t with
        | none => (.error .eNoSpace, t, unmountFs newRoot s)
        | some i =>
          (.ok newRoot, { t with mountTable := Function.update t.mountTable i (some ⟨target, newRoot⟩) },
            ops.setMountParent newRoot target s)

def unmount (mountRoot : V) (t : Table V) : Except Err Unit × Table V :=
  if !t.initialized then (.error .eInvalid, t)
  else
    match findMountByRoot t mountRoot with
    | none => (.error .eNotFound, t)
    | some i =>
      (.ok (), { t with
        mountTable := Function.update t.mountTable i none
        rootVnode := if t.rootVnode = some mountRoot then none else t.rootVnode })

def setRoot (newRoot : V) (t : Table V) : Except Err Unit × Table V :=
  if !t.initialized then (.error .eInvalid, t) else (.ok (), { t with rootVnode := some newRoot })

end Tori.Vfs
