import Tori.Spec.Ramfs

/-! The overlay file system (`kernel/src/fs/overlayfs.cpp`) over layers that are RamFS trees, and
the table of vnode operations that `vfs.cpp` calls. -/

namespace Tori.Fs

open Vfs

/-- The root of a layer may be null. -/
structure Layer where
  root : Option Addr
  writable : Bool

/-- `g_layers` and `g_layer_count` after a successful `overlayfs::init`. -/
structure Layers where
  layer : Fin maxLayers → Layer
  count : ℕ
  count_pos : 0 < count
  count_le : count ≤ maxLayers

namespace Layers

def indices (g : Layers) : List (Fin maxLayers) := (List.finRange maxLayers).filter fun i => i.val < g.count

def above (g : Layers) (i : Fin maxLayers) : List (Fin maxLayers) := g.indices.filter fun u => u < i

def writable (g : Layers) (i : Fin maxLayers) : Bool := (g.layer i).writable

end Layers

/-- `".wh."` -/
def whiteoutPrefix : Str := [46, 119, 104, 46]

def hasWhiteoutPrefix (name : Str) : Bool := whiteoutPrefix.isPrefixOf name

def makeWhiteoutName (name : Str) : Str := (whiteoutPrefix ++ name).take 255

/-- The layers that may be written, with their directory. -/
def writableRoot (g : Layers) (o : OverlayVnode) (i : Fin maxLayers) : Option Addr :=
  if g.writable i then o.layerRoots i else none

/-- The whiteout check in the given layers; a whiteout that is found loses a reference. -/
def findWhiteout (g : Layers) (o : OverlayVnode) (whName : Str) : List (Fin maxLayers) → State → Bool × State
  | [], s => (false, s)
  | u :: us, s =>
    match writableRoot g o u with
    | none => findWhiteout g o whName us s
    | some root =>
      match ramfsLookup root whName s with
      | (.ok wh, s) => (true, vnodeUnref wh s)
      | (.error _, s) => findWhiteout g o whName us s

/-- What `overlay_lookup` has found so far: `type` is set once `found` is. -/
structure Found where
  type : Option VnodeType
  layerRoots : Fin maxLayers → Option Addr

def collectLayers (g : Layers) (o : OverlayVnode) (name : Str) :
    List (Fin maxLayers) → Found → State → Found × State
  | [], f, s => (f, s)
  | i :: is, f, s =>
    match o.layerRoots i with
    | none => collectLayers g o name is f s
    | some lroot =>
      match findWhiteout g o (makeWhiteoutName name) (g.above i) s with
      | (true, s) => (f, s)
      | (false, s) =>
        match ramfsLookup lroot name s with
        | (.error _, s) => collectLayers g o name is f s
        | (.ok real, s) =>
          let put := Function.update f.layerRoots i (some real)
          match f.type.getD (s.vnodes real).type with
          | .file => (⟨some .file, put⟩, s)
          | .directory =>
            if (s.vnodes real).type = .directory then collectLayers g o name is ⟨some .directory, put⟩ s
            else (⟨some .directory, f.layerRoots⟩, vnodeUnref real s)

def unrefRoots (roots : Fin maxLayers → Option Addr) : List (Fin maxLayers) → State → State
  | [], s => s
  | i :: is, s =>
    match roots i with
    | none => unrefRoots roots is s
    | some a => unrefRoots roots is (vnodeUnref a s)

variable (A : Allocator) (g : Layers)

def overlayLookup (dir : Addr) (name : Str) (s : State) : Except Err Addr × State :=
  let s := s.touch dir
  match s.overlay? dir with
  | none => (.error .fault, s)
  | some o =>
    match allocBlock A s with
    | (false, s) => (.error .eNoSpace, s)
    | (true, s) =>
      match collectLayers g o name g.indices ⟨none, fun _ => none⟩ s with
      | (⟨none, _⟩, s) => (.error .eNotFound, s)
      | (⟨some type, roots⟩, s) =>
        match newVnode A ⟨type, .overlay ⟨roots, [], false⟩, 0, none⟩ s with
        | (none, s) => (.error .eNoSpace, unrefRoots roots g.indices s)
        | (some vn, s) => (.ok vn, s)

/-- The first writable layer that has this directory. -/
def firstWritable (o : OverlayVnode) (is : List (Fin maxLayers)) : Option (Fin maxLayers × Addr) :=
  is.findSome? fun i => (writableRoot g o i).map fun root => (i, root)

def overlayCreate (dir : Addr) (name : Str) (s : State) : Except Err Addr × State :=
  let s := s.touch dir
  match s.overlay? dir with
  | none => (.error .fault, s)
  | some o =>
    match firstWritable g o g.indices with
    | none => (.error .eIo, s)
    | some (i, root) =>
      match ramfsCreate A root name s with
      | (.error e, s) => (.error e, s)
      | (.ok real, s) =>
        match allocBlock A s with
        | (false, s) => (.error .eNoSpace, vnodeUnref real s)
        | (true, s) =>
          let roots := Function.update (fun _ => none) i (some real)
          match newVnode A ⟨(s.vnodes real).type, .overlay ⟨roots, [], false⟩, 0, none⟩ s with
          | (none, s) => (.error .eNoSpace, vnodeUnref real s)
          | (some vn, s) => (.ok vn, s)

def overlayMkdir (dir : Addr) (name : Str) (s : State) : Except Err Unit × State :=
  let s := s.touch dir
  match s.overlay? dir with
  | none => (.error .fault, s)
  | some o =>
    match firstWritable g o g.indices with
    | none => (.error .eIo, s)
    | some (_, root) => ramfsMkdir A root name s

def overlayRmdir (dir : Addr) (name : Str) (s : State) : Except Err Unit × State :=
  let s := s.touch dir
  match s.overlay? dir with
  | none => (.error .fault, s)
  | some o =>
    match firstWritable g o g.indices with
    | none => (.error .eNotFound, s)
    | some (_, root) =>
      match ramfsLookup root name s with
      | (.error _, s) => (.error .eNotFound, s)
      | (.ok real, s) => ramfsRmdir root name (vnodeUnref real s)

/-- `overlay_unlink` for a file of the read-only layer `i`. -/
def makeWhiteout (o : OverlayVnode) (i : Fin maxLayers) (name : Str) (s : State) : Except Err Unit × State :=
  match firstWritable g o (g.above i) with
  | none => (.error .eIo, s)
  | some (_, root) =>
    match ramfsLookup root (makeWhiteoutName name) s with
    | (.ok wh, s) => (.error .eExists, vnodeUnref wh s)
    | (.error _, s) =>
      let (r, s) := ramfsCreate A root (makeWhiteoutName name) s
      (r.map fun _ => (), s)

def unlinkLayers (o : OverlayVnode) (name : Str) : List (Fin maxLayers) → State → Except Err Unit × State
  | [], s => (.error .eNotFound, s)
  | i :: is, s =>
    match o.layerRoots i with
    | none => unlinkLayers o name is s
    | some root =>
      match ramfsLookup root name s with
      | (.error _, s) => unlinkLayers o name is s
      | (.ok real, s) =>
        if g.writable i then ramfsUnlink root name (vnodeUnref real s)
        else makeWhiteout A g o i name (vnodeUnref real s)

def overlayUnlink (dir : Addr) (name : Str) (s : State) : Except Err Unit × State :=
  let s := s.touch dir
  match s.overlay? dir with
  | none => (.error .fault, s)
  | some o => unlinkLayers A g o name g.indices s

/-- The layer vnode that `overlay_read`, `overlay_write` and `overlay_stat` go to: the first one,
whether or not its layer may be written. -/
def firstLayer (o : OverlayVnode) : Option Addr := g.indices.findSome? o.layerRoots

def overlayRead (node : Addr) (offset : ℕ) (buf : ℕ → UInt8) (size : ℕ) (s : State) :
    Except Err (ℕ × (ℕ → UInt8)) × State :=
  let s := s.touch node
  match (s.overlay? node).bind (firstLayer g) with
  | none => (.error .eInvalid, s)
  | some real => ramfsRead real offset buf size s

def overlayWrite (node : Addr) (offset : ℕ) (buf : ℕ → UInt8) (size : ℕ) (s : State) :
    Except Err ℕ × State :=
  let s := s.touch node
  match (s.overlay? node).bind (firstLayer g) with
  | none => (.error .eInvalid, s)
  | some real => ramfsWrite A real offset buf size s

def overlayStat (node : Addr) (s : State) : Except Err Stat × State :=
  let s := s.touch node
  match (s.overlay? node).bind (firstLayer g) with
  | none => (.error .eInvalid, s)
  | some real => ramfsStat real s

/-- What repeated `readdir` calls on a layer directory deliver. -/
def dirents (root : Addr) (s : State) : List Dirent :=
  match s.dir? root with
  | none => []
  | some d => d.entries.map fun e => ⟨copyName e.name, (s.vnodes e.vnode).type⟩

def mergeEntries (o : OverlayVnode) (li : Fin maxLayers) :
    List Dirent → List MergedEntry → State → List MergedEntry × State
  | [], merged, s => (merged, s)
  | d :: ds, merged, s =>
    if hasWhiteoutPrefix d.name then mergeEntries o li ds merged s
    else
      match findWhiteout g o (makeWhiteoutName d.name) (g.above li) s with
      | (true, s) => mergeEntries o li ds merged s
      | (false, s) =>
        if merged.any fun m => m.name = d.name then mergeEntries o li ds merged s
        else mergeEntries o li ds (merged ++ [⟨copyName d.name, d.type⟩]) s

def mergeLayers (o : OverlayVnode) : List (Fin maxLayers) → List MergedEntry → State → List MergedEntry × State
  | [], merged, s => (merged, s)
  | li :: is, merged, s =>
    match o.layerRoots li with
    | none => mergeLayers o is merged s
    | some root =>
      let (merged, s) := mergeEntries g o li (dirents root s) merged (s.touch root)
      mergeLayers o is merged s

/-- `max_total`: the entries of all layers. -/
def totalEntries (o : OverlayVnode) (s : State) : ℕ :=
  (g.indices.map fun i => ((o.layerRoots i).elim [] fun root => dirents root s).length).sum

def buildMergedList (dir : Addr) (o : OverlayVnode) (s : State) : OverlayVnode × State :=
  let finish (merged : List MergedEntry) (s : State) : OverlayVnode × State :=
    let o := { o with merged := merged, cached := true }
    (o, s.setData dir (.overlay o))
  if o.cached then (o, s)
  else if totalEntries g o s = 0 then finish [] s
  else
    match allocBlock A s with
    | (false, s) => finish [] s
    | (true, s) =>
      let (merged, s) := mergeLayers g o g.indices [] s
      finish merged s

def overlayReaddir (dir : Addr) (offset : ℕ) (s : State) : Except Err (Dirent × ℕ) × State :=
  let s := s.touch dir
  match s.overlay? dir with
  | none => (.error .fault, s)
  | some o =>
    let (o, s) := buildMergedList A g dir o s
    match o.merged[offset]? with
    | none => (.error .eNotFound, s)
    | some m => (.ok (⟨copyName m.name, m.type⟩, offset + 1), s)

/-- The layer roots of a mounted overlay. -/
def rootLayers (i : Fin maxLayers) : Option Addr := if i.val < g.count then (g.layer i).root else none

def refRoots (roots : Fin maxLayers → Option Addr) : List (Fin maxLayers) → State → State
  | [], s => s
  | i :: is, s =>
    match roots i with
    | none => refRoots roots is s
    | some a => refRoots roots is (vnodeRef a s)

def overlayMount (s : State) : Except Err Addr × State :=
  match allocBlock A s with
  | (false, s) => (.error .eNoSpace, s)
  | (true, s) =>
    let s := refRoots (rootLayers g) g.indices s
    match newVnode A ⟨.directory, .overlay ⟨rootLayers g, [], false⟩, 0, none⟩ s with
    | (none, s) => (.error .eNoSpace, unrefRoots (rootLayers g) g.indices s)
    | (some root, s) => (.ok root, s)

def overlayUnmount (root : Addr) (s : State) : State :=
  match s.overlay? root with
  | none => s.release root
  | some o => (unrefRoots o.layerRoots g.indices s).release root

/-! ### The operations of a vnode -/

/-- `vnode->ops`: the overlay's table for overlay vnodes, RamFS's for the others. -/
def isOverlay (a : Addr) (s : State) : Bool := (s.overlay? a).isSome

def nodeRmdir (dir : Addr) (name : Str) (s : State) : Except Err Unit × State :=
  if isOverlay dir s then overlayRmdir g dir name s else ramfsRmdir dir name s

def nodeUnlink (dir : Addr) (name : Str) (s : State) : Except Err Unit × State :=
  if isOverlay dir s then overlayUnlink A g dir name s else ramfsUnlink dir name s

def fsOps : VnodeOps State Addr where
  type a s := (s.vnodes a).type
  lookup a name s := if isOverlay a s then overlayLookup A g a name s else ramfsLookup a name s
  create a name s := if isOverlay a s then overlayCreate A g a name s else ramfsCreate A a name s
  mkdir a name s := if isOverlay a s then overlayMkdir A g a name s else ramfsMkdir A a name s
  read a off buf n s := if isOverlay a s then overlayRead g a off buf n s else ramfsRead a off buf n s
  write a off buf n s := if isOverlay a s then overlayWrite A g a off buf n s else ramfsWrite A a off buf n s
  readdir a off s := if isOverlay a s then overlayReaddir A g a off s else ramfsReaddir a off s
  stat a s := if isOverlay a s then overlayStat g a s else ramfsStat a s
  ref a s := vnodeRef a s
  unref a s := vnodeUnref a s
  setMountParent a target s := s.setVnode a { s.vnodes a with mountParent := some target }

end Tori.Fs
