import Tori.Spec.Overlay

/-! Which bytes of the caller's buffer the file operations of RamFS and the overlay store to or load. -/

namespace Tori.Fs

open Vfs

/-- The positions that the loop of `ramfs_read` stores to: those of pages that exist. -/
def readLoopTouched (f : RamfsFile) (offset size : ℕ) : ℕ → ℕ → List ℕ
  | 0, _ => []
  | n + 1, done =>
    if done < size then
      let (pageIdx, _, chunk) := chunkAt offset size done
      (match f.pages[pageIdx]? with
        | some (some _) => (List.range chunk).map (done + ·)
        | _ => []) ++ readLoopTouched f offset size n (done + chunk)
    else []

def ramfsReadTouched (node : Addr) (offset size : ℕ) (s : State) : List ℕ :=
  match (s.touch node).file? node with
  | none => []
  | some f =>
    if offset ≥ f.size then []
    else readLoopTouched f offset (min size (f.size - offset)) (min size (f.size - offset)) 0

/-- The positions that the loop of `ramfs_write` loads; `present` says which pages exist. -/
def writeLoopTouched (A : Allocator) (offset size : ℕ) : ℕ → ℕ → List Bool → ℕ → List ℕ
  | 0, _, _, _ => []
  | n + 1, done, present, clock =>
    if done < size then
      let (pageIdx, _, chunk) := chunkAt offset size done
      let here := (List.range chunk).map (done + ·)
      match present[pageIdx]? with
      | none => []
      | some true => here ++ writeLoopTouched A offset size n (done + chunk) present clock
      | some false =>
        match A.page clock with
        | none => []
        | some _ => here ++ writeLoopTouched A offset size n (done + chunk) (present.set pageIdx true) (clock + 1)
    else []

def ramfsWriteTouched (A : Allocator) (node : Addr) (offset size : ℕ) (s : State) : List ℕ :=
  let s := s.touch node
  match s.file? node with
  | none => []
  | some f =>
    match growPages A f (((offset + size) % 2 ^ 64 + pageSize - 1) % 2 ^ 64 / pageSize) s with
    | (.error _, _) => []
    | (.ok pages, s) => writeLoopTouched A offset size size 0 (pages.map Option.isSome) s.clock

/-- The RamFS vnode whose operation is called. -/
def realNode (g : Layers) (node : Addr) (s : State) : Option Addr :=
  if isOverlay node s then ((s.touch node).overlay? node).bind (firstLayer g) else some node

/-- The state in which it is called. -/
def realState (node : Addr) (s : State) : State := if isOverlay node s then s.touch node else s

def fsReadTouched (g : Layers) (node : Addr) (offset size : ℕ) (s : State) : List ℕ :=
  match realNode g node s with
  | none => []
  | some real => ramfsReadTouched real offset size (realState node s)

def fsWriteTouched (A : Allocator) (g : Layers) (node : Addr) (offset size : ℕ) (s : State) : List ℕ :=
  match realNode g node s with
  | none => []
  | some real => ramfsWriteTouched A real offset size (realState node s)

end Tori.Fs
