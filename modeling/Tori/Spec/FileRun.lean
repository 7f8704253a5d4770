import Tori.Sanity.FileBuffers

/-! Histories of one RamFS file: writes with the bytes that they put together, calls on one descriptor, and the same writes
on two machines whose new pages hold different bytes. -/

namespace Tori.Fs

open Vfs

/-! ### Writes at or before the end -/

/-- `data` laid over `bytes` from `offset` on. -/
def layOver (bytes : List UInt8) (offset : ℕ) (data : List UInt8) : List UInt8 :=
  bytes.take offset ++ data ++ bytes.drop (offset + data.length)

/-- `bytes` are the reference bytes after the writes. -/
inductive Written (A : Allocator) (node : Addr) (s₀ : State) : List UInt8 → State → Prop
  | start : Written A node s₀ [] s₀
  | write {bytes : List UInt8} {s : State} {f : RamfsFile} (hrun : Written A node s₀ bytes s) (offset : ℕ) (buf : ℕ → UInt8)
      (size : ℕ) (hf : s.file? node = some f) (hoffset : offset ≤ f.size) (hend : offset + size < 2 ^ 63) :
      Written A node s₀ (layOver bytes offset ((List.range size).map buf)) (ramfsWrite A node offset buf size s).2

/-- The file is `bytes` for `ramfs_read` and `ramfs_stat`. -/
structure ReadsAs (node : Addr) (bytes : List UInt8) (s : State) : Prop where
  size : ∃ f, s.file? node = some f ∧ f.size = bytes.length
  read : ∀ offset buf n, ∃ buf', (ramfsRead node offset buf n s).1 = .ok (min n (bytes.length - offset), buf') ∧
    (∀ k < min n (bytes.length - offset), bytes[offset + k]? = some (buf' k)) ∧
    ∀ k, min n (bytes.length - offset) ≤ k → buf' k = buf k
  stat : (ramfsStat node s).1 = .ok ⟨.file, bytes.length⟩

/-! ### A write that fails -/

inductive FileOp where
  | seek (offset whence : ℤ)
  | read (buf : ℕ → UInt8) (size : ℕ)
  | write (buf : ℕ → UInt8) (size : ℕ)

section

variable (A : Allocator) (g : Layers) (i : Fin maxFds)

def fileExec : FileOp → FdTable Addr × State → FdTable Addr × State
  | .seek offset whence, y => (seek (fsOps A g) i.val offset whence y.1 y.2).2
  | .read buf size, y => (read (fsOps A g) i.val buf size y.1 y.2).2
  | .write buf size, y => (write (fsOps A g) i.val buf size y.1 y.2).2

inductive FileRun (allowed : FileOp → FdTable Addr × State → Prop) (y₀ : FdTable Addr × State) : FdTable Addr × State → Prop
  | start : FileRun allowed y₀ y₀
  | step {y : FdTable Addr × State} {op : FileOp} (hrun : FileRun allowed y₀ y) (hop : allowed op y) :
      FileRun allowed y₀ (fileExec A g i op y)

/-- The position that `seek` is asked for. -/
def seekTarget (offset whence : ℤ) (y : FdTable Addr × State) : ℤ :=
  (if whence = 0 then 0
    else if whence = 1 then ((y.1 i).offset : ℤ)
    else (((y.1 i).vnode.bind y.2.file?).elim 0 RamfsFile.size : ℕ)) + offset

/-- `seek` goes where it is asked to or fails without moving, and `write` finds its pages in the page array; `.fault` is an
index outside it. -/
def StaysInside : FileOp → FdTable Addr × State → Prop
  | .seek offset whence, y =>
    let x := seek (fsOps A g) i.val offset whence y.1 y.2
    let target := seekTarget i offset whence y
    (0 ≤ target ∧ target < 2 ^ 64 → x.1 = .ok target.toNat ∧ (x.2.1 i).offset = target.toNat) ∧
      (target < 0 ∨ 2 ^ 64 ≤ target → (∃ e, x.1 = .error e) ∧ (x.2.1 i).offset = (y.1 i).offset)
  | .read _ _, _ => True
  | .write buf size, y => (write (fsOps A g) i.val buf size y.1 y.2).1 ≠ .error .fault

/-- The position exists, and the pages of the write can be counted in 64 bits. -/
def InRange : FileOp → FdTable Addr × State → Prop
  | .seek offset whence, y => 0 ≤ seekTarget i offset whence y ∧ seekTarget i offset whence y < 2 ^ 64
  | .read _ _, _ => True
  | .write _ size, y => size = 0 ∨ (y.1 i).offset + size + pageSize ≤ 2 ^ 64

end

/-- The descriptor is open on the RamFS file `v`. -/
structure OpenFile (i : Fin maxFds) (v : Addr) (y : FdTable Addr × State) : Prop where
  used : (y.1 i).used = true
  vnode : (y.1 i).vnode = some v
  type : (y.2.vnodes v).type = .file
  file : ∃ f, y.2.file? v = some f

/-! ### Two machines -/

/-- The allocators differ only in the bytes that new pages hold. -/
structure SameAnswers (A A' : Allocator) : Prop where
  block : A'.block = A.block
  page : ∀ n, (A'.page n).isSome = (A.page n).isSome

/-- The same writes to a file on both machines; `spans` are the ranges that were to be written. -/
inductive TwoRuns (A A' : Allocator) (node : Addr) (allowed : State → ℕ → (ℕ → UInt8) → ℕ → Prop) (s₀ s₀' : State) :
    List (ℕ × ℕ) → State → State → Prop
  | start : TwoRuns A A' node allowed s₀ s₀' [] s₀ s₀'
  | write {spans : List (ℕ × ℕ)} {s s' : State} (hrun : TwoRuns A A' node allowed s₀ s₀' spans s s') (offset : ℕ)
      (buf : ℕ → UInt8) (size : ℕ) (hoffset : offset < 2 ^ 64) (hsize : size < 2 ^ 64) (hok : allowed s offset buf size) :
      TwoRuns A A' node allowed s₀ s₀' ((offset, size) :: spans) (ramfsWrite A node offset buf size s).2
        (ramfsWrite A' node offset buf size s').2

/-- A read delivers the same bytes on both, whatever the buffers held, and zeros where nothing was written. -/
def NoLeak (node : Addr) (spans : List (ℕ × ℕ)) (s s' : State) : Prop :=
  ∀ offset size buf buf', ∃ k b b', (ramfsRead node offset buf size s).1 = .ok (k, b) ∧
    (ramfsRead node offset buf' size s').1 = .ok (k, b') ∧
    ∀ i < k, b' i = b i ∧ ((∀ p ∈ spans, ¬(p.1 ≤ offset + i ∧ offset + i < p.1 + p.2)) → b i = 0)

/-- The write stays inside the page array and, where it succeeds, leaves no hole behind the old end. -/
def NoHole (A : Allocator) (node : Addr) (s : State) (offset : ℕ) (buf : ℕ → UInt8) (size : ℕ) : Prop :=
  (size = 0 ∨ offset + size + pageSize ≤ 2 ^ 64) ∧
    ∀ f n, s.file? node = some f → (ramfsWrite A node offset buf size s).1 = .ok n → offset ≤ f.size

end Tori.Fs
