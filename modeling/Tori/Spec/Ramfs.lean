import Tori.Spec.Vfs

/-! The in-memory file system (`kernel/src/fs/ramfs.cpp`) over a heap of vnodes. A vnode owns its
private data and a file owns its pages, so both stand inside the vnode; its `ops` follow from the
kind of its private data. `kfree` clears `live` and leaves the bytes where they are. `stale` records
that some operation read or wrote a vnode after its release. -/

namespace Tori.Fs

open Vfs

abbrev Addr : Type := ℕ

/-- The 4096 bytes of a physical page. -/
abbrev Page : Type := ℕ → UInt8

def pageSize : ℕ := 4096

structure RamfsEntry where
  name : Str
  vnode : Addr

structure RamfsDir where
  entries : List RamfsEntry
  capacity : ℕ

structure RamfsFile where
  pages : List (Option Page)
  size : ℕ

structure MergedEntry where
  name : Str
  type : VnodeType

abbrev maxLayers : ℕ := 8

/-- The private data of an overlay vnode. -/
structure OverlayVnode where
  layerRoots : Fin maxLayers → Option Addr
  merged : List MergedEntry
  cached : Bool

inductive PrivateData where
  | dir (d : RamfsDir)
  | file (f : RamfsFile)
  | overlay (o : OverlayVnode)

structure Vnode where
  type : VnodeType
  privateData : PrivateData
  refCount : ℕ
  mountParent : Option Addr

/-- The answers of `kalloc` and `pmm::alloc_page`, which may depend on the number of the call and
on what is allocated: the address of a vnode, whether another record or array was allocated, and
the bytes found in a new page. -/
structure Allocator where
  vnode : ℕ → (Addr → Bool) → Option Addr
  fresh : ∀ n live a, vnode n live = some a → live a = false
  block : ℕ → Bool
  page : ℕ → Option Page

structure State where
  vnodes : Addr → Vnode
  live : Addr → Bool
  stale : Bool
  clock : ℕ

namespace State

def touch (a : Addr) (s : State) : State := { s with stale := s.stale || !s.live a }

def setVnode (a : Addr) (v : Vnode) (s : State) : State :=
  { s with vnodes := Function.update s.vnodes a v }

def setData (a : Addr) (p : PrivateData) (s : State) : State :=
  s.setVnode a { s.vnodes a with privateData := p }

/-- `kfree(vnode, sizeof(Vnode))` -/
def release (a : Addr) (s : State) : State := { s with live := Function.update s.live a false }

def dir? (s : State) (a : Addr) : Option RamfsDir :=
  match (s.vnodes a).privateData with
  | .dir d => some d
  | _ => none

def file? (s : State) (a : Addr) : Option RamfsFile :=
  match (s.vnodes a).privateData with
  | .file f => some f
  | _ => none

def overlay? (s : State) (a : Addr) : Option OverlayVnode :=
  match (s.vnodes a).privateData with
  | .overlay o => some o
  | _ => none

end State

def vnodeRef (a : Addr) (s : State) : State :=
  let s := s.touch a
  s.setVnode a { s.vnodes a with refCount := (s.vnodes a).refCount + 1 }

/-- A reference count of 0 stays 0. -/
def vnodeUnref (a : Addr) (s : State) : State :=
  let s := s.touch a
  s.setVnode a { s.vnodes a with refCount := (s.vnodes a).refCount - 1 }

variable (A : Allocator)

/-- `kalloc` of a vnode that is then filled in. -/
def newVnode (v : Vnode) (s : State) : Option Addr × State :=
  match A.vnode s.clock s.live with
  | none => (none, { s with clock := s.clock + 1 })
  | some a =>
    (some a, { s with
      clock := s.clock + 1, live := Function.update s.live a true, vnodes := Function.update s.vnodes a v })

/-- `kalloc` of any other object. -/
def allocBlock (s : State) : Bool × State := (A.block s.clock, { s with clock := s.clock + 1 })

/-- `while (new_cap < needed) new_cap *= 2` -/
def doubleUntil (needed cap : ℕ) : ℕ := (fun c => if c < needed then 2 * c else c)^[64] cap

def ensureDirCapacity (dir : Addr) (d : RamfsDir) (needed : ℕ) (s : State) : Except Err RamfsDir × State :=
  if needed ≤ d.capacity then (.ok d, s)
  else
    let newCap := doubleUntil needed (if d.capacity = 0 then 8 else d.capacity * 2)
    match allocBlock A s with
    | (false, s) => (.error .eNoSpace, s)
    | (true, s) => (.ok { d with capacity := newCap }, s.setData dir (.dir { d with capacity := newCap }))

/-- The name field has 256 bytes: `copy_string` keeps the first 255. -/
def copyName (name : Str) : Str := name.take 255

def dirAddEntry (dir : Addr) (d : RamfsDir) (name : Str) (vnode : Addr) (s : State) :
    Except Err Unit × State :=
  match ensureDirCapacity A dir d (d.entries.length + 1) s with
  | (.error e, s) => (.error e, s)
  | (.ok d, s) =>
    (.ok (), (vnodeRef vnode s).setData dir (.dir { d with entries := d.entries ++ [⟨copyName name, vnode⟩] }))

def dirFindEntry (d : RamfsDir) (name : Str) : Option RamfsEntry := d.entries.find? fun e => e.name = name

def dirRemoveEntry (dir : Addr) (d : RamfsDir) (name : Str) (s : State) : State :=
  match dirFindEntry d name with
  | none => s
  | some e => (vnodeUnref e.vnode s).setData dir (.dir { d with entries := d.entries.eraseP fun e => e.name = name })

def ramfsLookup (dir : Addr) (name : Str) (s : State) : Except Err Addr × State :=
  let s := s.touch dir
  match s.dir? dir with
  | none => (.error .fault, s)
  | some d =>
    match dirFindEntry d name with
    | none => (.error .eNotFound, s)
    | some e => (.ok e.vnode, s)

/-- The common body of `ramfs_create` and `ramfs_mkdir`. -/
def ramfsMake (type : VnodeType) (data : PrivateData) (dir : Addr) (name : Str) (s : State) :
    Except Err Addr × State :=
  let s := s.touch dir
  match s.dir? dir with
  | none => (.error .fault, s)
  | some d =>
    if (dirFindEntry d name).isSome then (.error .eExists, s)
    else
      match newVnode A ⟨type, data, 1, none⟩ s with
      | (none, s) => (.error .eNoSpace, s)
      | (some a, s) =>
        match allocBlock A s with
        | (false, s) => (.error .eNoSpace, s.release a)
        | (true, s) =>
          match dirAddEntry A dir d name a s with
          | (.error e, s) => (.error e, s.release a)
          | (.ok (), s) => (.ok a, s)

def ramfsCreate (dir : Addr) (name : Str) (s : State) : Except Err Addr × State :=
  ramfsMake A .file (.file ⟨[], 0⟩) dir name s

def ramfsMkdir (dir : Addr) (name : Str) (s : State) : Except Err Unit × State :=
  let (r, s) := ramfsMake A .directory (.dir ⟨[], 0⟩) dir name s
  (r.map fun _ => (), s)

/-- The vnode is released first; `dir_remove_entry` then drops the entry's reference to it. -/
def releaseEntry (dir : Addr) (d : RamfsDir) (name : Str) (target : Addr) (s : State) : State :=
  dirRemoveEntry dir d name (s.release target)

def ramfsRmdir (dir : Addr) (name : Str) (s : State) : Except Err Unit × State :=
  let s := s.touch dir
  match s.dir? dir with
  | none => (.error .fault, s)
  | some d =>
    match dirFindEntry d name with
    | none => (.error .eNotFound, s)
    | some e =>
      let s := s.touch e.vnode
      if (s.vnodes e.vnode).type ≠ .directory then (.error .eNotDir, s)
      else
        match s.dir? e.vnode with
        | none => (.error .fault, s)
        | some sub =>
          if sub.entries.length > 0 then (.error .eNotEmpty, s)
          else (.ok (), releaseEntry dir d name e.vnode s)

/-- The pages of the file are released with it. -/
def ramfsUnlink (dir : Addr) (name : Str) (s : State) : Except Err Unit × State :=
  let s := s.touch dir
  match s.dir? dir with
  | none => (.error .fault, s)
  | some d =>
    match dirFindEntry d name with
    | none => (.error .eNotFound, s)
    | some e =>
      let s := s.touch e.vnode
      if (s.vnodes e.vnode).type ≠ .file then (.error .eIsDir, s)
      else
        match s.file? e.vnode with
        | none => (.error .fault, s)
        | some _ => (.ok (), releaseEntry dir d name e.vnode s)

/-! ### File contents -/

/-- The chunk of the copy loops at `done`: page index, offset in the page, length. -/
def chunkAt (offset size done : ℕ) : ℕ × ℕ × ℕ :=
  let pos := (offset + done) % 2 ^ 64
  (pos / pageSize, pos % pageSize, min (pageSize - pos % pageSize) (size - done))

/-- The loop of `ramfs_read`; a page that was never written leaves the buffer alone. Each round
advances by at least one byte, so `size` rounds are enough. -/
def readLoop (f : RamfsFile) (offset size : ℕ) : ℕ → ℕ → (ℕ → UInt8) → ℕ → UInt8
  | 0, _, buf => buf
  | n + 1, done, buf =>
    if done < size then
      let (pageIdx, pageOff, chunk) := chunkAt offset size done
      let buf := match f.pages[pageIdx]? with
        | some (some page) => fun k =>
          if done ≤ k ∧ k < done + chunk then page (pageOff + (k - done)) else buf k
        | _ => buf
      readLoop f offset size n (done + chunk) buf
    else buf

def ramfsRead (node : Addr) (offset : ℕ) (buf : ℕ → UInt8) (size : ℕ) (s : State) :
    Except Err (ℕ × (ℕ → UInt8)) × State :=
  let s := s.touch node
  match s.file? node with
  | none => (.error .fault, s)
  | some f =>
    if offset ≥ f.size then (.ok (0, buf), s)
    else
      let size := min size (f.size - offset)
      (.ok (size, readLoop f offset size size 0 buf), s)

/-- The loop of `ramfs_write`; it stores into the pages as it goes, also when it fails. -/
def writeLoop (offset size : ℕ) (buf : ℕ → UInt8) :
    ℕ → ℕ → List (Option Page) → State → Except Err Unit × List (Option Page) × State
  | 0, _, pages, s => (.ok (), pages, s)
  | n + 1, done, pages, s =>
    if done < size then
      let (pageIdx, pageOff, chunk) := chunkAt offset size done
      let put (page : Page) : List (Option Page) := pages.set pageIdx (some fun k =>
        if pageOff ≤ k ∧ k < pageOff + chunk then buf (done + (k - pageOff)) else page k)
      match pages[pageIdx]? with
      | none => (.error .fault, pages, s)
      | some (some page) => writeLoop offset size buf n (done + chunk) (put page) s
      | some none =>
        match A.page s.clock with
        | none => (.error .eNoSpace, pages, { s with clock := s.clock + 1 })
        | some page => writeLoop offset size buf n (done + chunk) (put page) { s with clock := s.clock + 1 }
    else (.ok (), pages, s)

def growPages (f : RamfsFile) (needed : ℕ) (s : State) : Except Err (List (Option Page)) × State :=
  if needed > f.pages.length then
    match allocBlock A s with
    | (false, s) => (.error .eNoSpace, s)
    | (true, s) => (.ok (f.pages ++ List.replicate (needed - f.pages.length) none), s)
  else (.ok f.pages, s)

def ramfsWrite (node : Addr) (offset : ℕ) (buf : ℕ → UInt8) (size : ℕ) (s : State) :
    Except Err ℕ × State :=
  let s := s.touch node
  match s.file? node with
  | none => (.error .fault, s)
  | some f =>
    let fileEnd := (offset + size) % 2 ^ 64
    match growPages A f ((fileEnd + pageSize - 1) % 2 ^ 64 / pageSize) s with
    | (.error e, s) => (.error e, s)
    | (.ok pages, s) =>
      match writeLoop A offset size buf size 0 pages s with
      | (.error e, pages, s) => (.error e, s.setData node (.file { f with pages := pages }))
      | (.ok (), pages, s) => (.ok size, s.setData node (.file ⟨pages, max f.size fileEnd⟩))

def ramfsReaddir (dir : Addr) (offset : ℕ) (s : State) : Except Err (Dirent × ℕ) × State :=
  let s := s.touch dir
  match s.dir? dir with
  | none => (.error .fault, s)
  | some d =>
    match d.entries[offset]? with
    | none => (.error .eNotFound, s)
    | some e => (.ok (⟨copyName e.name, (s.vnodes e.vnode).type⟩, offset + 1), s.touch e.vnode)

def ramfsStat (node : Addr) (s : State) : Except Err Stat × State :=
  let s := s.touch node
  match (s.vnodes node).type, s.file? node with
  | .directory, _ => (.ok ⟨.directory, 0⟩, s)
  | .file, some f => (.ok ⟨.file, f.size⟩, s)
  | .file, none => (.error .fault, s)

def ramfsMount (s : State) : Except Err Addr × State :=
  match newVnode A ⟨.directory, .dir ⟨[], 0⟩, 1, none⟩ s with
  | (none, s) => (.error .eNoSpace, s)
  | (some root, s) =>
    match allocBlock A s with
    | (false, s) => (.error .eNoSpace, s.release root)
    | (true, s) => (.ok root, s)

def ramfsUnmount (root : Addr) (s : State) : State := s.release root

end Tori.Fs
