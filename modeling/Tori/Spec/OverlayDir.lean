import Tori.Spec.FsRun
import Tori.Sanity.Ramfs

/-! One directory of the overlay: the calls on its vnode, what repeated `overlay_readdir` calls deliver, and that this
agrees with `overlay_lookup`. -/

namespace Tori.Fs

open Vfs

inductive DirOp where
  | create (name : Str)
  | mkdir (name : Str)
  | unlink (name : Str)
  | rmdir (name : Str)
  | readdir (offset : ℕ)

section

variable (A : Allocator) (g : Layers) (dir : Addr)

def dirExec : DirOp → State → State
  | .create name, s => (overlayCreate A g dir name s).2
  | .mkdir name, s => (overlayMkdir A g dir name s).2
  | .unlink name, s => (overlayUnlink A g dir name s).2
  | .rmdir name, s => (overlayRmdir g dir name s).2
  | .readdir offset, s => (overlayReaddir A g dir offset s).2

inductive DirRun (allowed : State → DirOp → Prop) (s₀ : State) : State → Prop
  | start : DirRun allowed s₀ s₀
  | step {s : State} {op : DirOp} (hrun : DirRun allowed s₀ s) (hok : allowed s op) : DirRun allowed s₀ (dirExec A g dir op s)

/-- `while (overlay_readdir(dir, offset, &d, &offset) == 0)`: the entries that the loop sees. -/
inductive Enumeration : ℕ → State → List Dirent → Prop
  | done {offset : ℕ} {s s' : State} {e : Err} (h : overlayReaddir A g dir offset s = (.error e, s')) :
      Enumeration offset s []
  | next {offset offset' : ℕ} {s s' : State} {d : Dirent} {ds : List Dirent}
      (h : overlayReaddir A g dir offset s = (.ok (d, offset'), s')) (hrest : Enumeration offset' s' ds) :
      Enumeration offset s (d :: ds)

/-- The type of what `overlay_lookup` finds. -/
def lookupType (name : Str) (s : State) : Option VnodeType :=
  match overlayLookup A g dir name s with
  | (.ok vn, s) => some (s.vnodes vn).type
  | (.error _, _) => none

/-- The listing has each name that can be looked up once, with its type, and no other. -/
def Coherent (s : State) : Prop :=
  ∃ ds, Enumeration A g dir 0 s ds ∧ ∀ name,
    ds.filter (fun d => d.name = name) = (lookupType A g dir name s).toList.map fun type => ⟨name, type⟩

end

/-- A new vnode for a directory of the overlay. The layers have RamFS directories there, none of them inside another,
with names of at most 255 bytes. -/
structure NewDir (dir : Addr) (roots : Fin maxLayers → Option Addr) (s : State) : Prop where
  live : s.live dir = true
  node : s.overlay? dir = some ⟨roots, [], false⟩
  layer : ∀ i a, roots i = some a → s.live a = true ∧ ∃ es, s.entries a = some es ∧
    ∀ e ∈ es, e.name.length ≤ 255 ∧ ∀ j, roots j ≠ some e.vnode

/-- The entry of the layer `i`. -/
def layerEntry (s : State) (roots : Fin maxLayers → Option Addr) (name : Str) (i : Fin maxLayers) : Option RamfsEntry :=
  (roots i).bind fun a => (s.entries a).bind fun es => es.find? fun e => e.name = name

/-- The first whiteout of the name in the writable ones of some layers. -/
def whiteoutIn (g : Layers) (s : State) (roots : Fin maxLayers → Option Addr) (name : Str) (us : List (Fin maxLayers)) :
    Option RamfsEntry :=
  us.findSome? fun u => if g.writable u then layerEntry s roots (makeWhiteoutName name) u else none

/-- The type of the name in the topmost layer that has it and no whiteout of it above. -/
def visibleType (g : Layers) (s : State) (roots : Fin maxLayers → Option Addr) (name : Str) (is : List (Fin maxLayers)) :
    Option VnodeType :=
  is.findSome? fun i => if (whiteoutIn g s roots name (g.above i)).isSome then none
    else (layerEntry s roots name i).map fun e => (s.vnodes e.vnode).type

/-- The entries of one name in the merged list. -/
def listed (merged : List MergedEntry) (name : Str) : List MergedEntry := merged.filter fun m => m.name = name

/-- No layer has a name that is reserved for whiteouts. -/
def NoWhiteouts (roots : Fin maxLayers → Option Addr) (s : State) : Prop :=
  ∀ i a es e, roots i = some a → s.entries a = some es → e ∈ es → hasWhiteoutPrefix e.name = false

/-- The directory has not been listed yet. -/
def Unlisted (dir : Addr) (s : State) : Prop := ∀ o, s.overlay? dir = some o → o.cached = false

/-- The layers that have the name. -/
def layerHas (o : OverlayVnode) (name : Str) (s : State) (i : Fin maxLayers) : Bool :=
  ((o.layerRoots i).bind s.entries).any fun es => es.any fun e => e.name = name

/-- Nothing is changed after the first listing, and no name reserved for whiteouts is made, be it by a call with such a
name or by the removal of a file from a read-only layer. -/
def KeepsListing (g : Layers) (dir : Addr) (s : State) : DirOp → Prop
  | .create name => Unlisted dir s ∧ hasWhiteoutPrefix name = false
  | .mkdir name => Unlisted dir s ∧ hasWhiteoutPrefix name = false
  | .unlink name => Unlisted dir s ∧ ∀ o i, s.overlay? dir = some o → g.indices.find? (layerHas o name s) = some i →
      g.writable i = true
  | .rmdir _ => Unlisted dir s
  | .readdir _ => True

/-! ### The buffer of the merged list -/

/-- `sizeof(MergedEntry)`. -/
abbrev mergedEntrySize : ℕ := 257

/-- The size with which `build_merged_list` calls `kalloc` for the buffer that it keeps. -/
def mergedAlloc (A : Allocator) (g : Layers) (o : OverlayVnode) (s : State) : Option ℕ :=
  if totalEntries g o s = 0 then none
  else if (allocBlock A s).1 then some (totalEntries g o s * mergedEntrySize)
  else none

/-- The size with which `overlay_unmount` calls `kfree` for a buffer that is not null. -/
def mergedFree (root : Addr) (s : State) : Option ℕ :=
  (s.overlay? root).map fun o => o.merged.length * mergedEntrySize

/-- The names of all layers, in the order in which they are read. -/
def layerNames (g : Layers) (s : State) (roots : Fin maxLayers → Option Addr) : List Str :=
  g.indices.flatMap fun i => ((roots i).elim [] fun root => dirents root s).map Dirent.name

/-- Every entry of the layers is listed: no name is reserved, hidden by a whiteout, or there twice. -/
structure AllListed (g : Layers) (s : State) (roots : Fin maxLayers → Option Addr) : Prop where
  shown : ∀ name ∈ layerNames g s roots,
    hasWhiteoutPrefix name = false ∧ (visibleType g s roots name g.indices).isSome = true
  once : (layerNames g s roots).Nodup

end Tori.Fs
