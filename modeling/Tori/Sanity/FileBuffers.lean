import Tori.Spec.FileBuffers
import Tori.Spec.Syscall

/-! The positions listed by the specification are the ones that matter: a read leaves the others alone, a write
does not depend on them, and a write that succeeds has loaded every one. -/

namespace Tori.Fs

open Vfs

variable {A : Allocator} {g : Layers} {f : RamfsFile} {offset size n done i : ℕ} {buf buf' : ℕ → UInt8}

variable {p o k : ℕ} {pages : List (Option Page)} {s s' : State} {node : Addr}

theorem chunk_bounds (hc : chunkAt offset size done = (p, o, k)) (h : done < size) :
    0 < k ∧ done + k ≤ size := by
  have hpage : (offset + done) % 2 ^ 64 % pageSize < pageSize := Nat.mod_lt _ (by decide)
  obtain ⟨-, hc⟩ := Prod.mk.inj hc
  cases hc
  omega

theorem mem_chunk : i ∈ (List.range k).map (done + ·) ↔ done ≤ i ∧ i < done + k := by
  rw [List.mem_map]
  constructor
  · rintro ⟨j, hj, rfl⟩
    have := List.mem_range.mp hj
    omega
  · rintro ⟨h1, h2⟩
    exact ⟨i - done, List.mem_range.mpr (by omega), by omega⟩

/-! ### Reading -/

theorem readLoopTouched_lt (h : i ∈ readLoopTouched f offset size n done) : done ≤ i ∧ i < size := by
  induction n generalizing done with
  | zero => cases h
  | succ n ih =>
    by_cases hd : done < size
    · rcases hc : chunkAt offset size done with ⟨p, o, k⟩
      have hk := chunk_bounds hc hd
      simp only [readLoopTouched, if_pos hd, hc] at h
      rcases List.mem_append.mp h with h | h
      · split at h
        · have := mem_chunk.mp h
          omega
        · cases h
      · have := ih h
        omega
    · rw [readLoopTouched, if_neg hd] at h
      cases h

theorem readLoop_same (h : i ∉ readLoopTouched f offset size n done) :
    readLoop f offset size n done buf i = buf i := by
  induction n generalizing done buf with
  | zero => rfl
  | succ n ih =>
    by_cases hd : done < size
    · rcases hc : chunkAt offset size done with ⟨p, o, k⟩
      simp only [readLoopTouched, if_pos hd, hc, List.mem_append, not_or] at h
      simp only [readLoop, if_pos hd, hc]
      rw [ih h.2]
      rcases hp : f.pages[p]? with _ | _ | page
      · rfl
      · rfl
      · simp only [hp] at h
        exact if_neg fun hi => h.1 (mem_chunk.mpr hi)
    · rw [readLoop, if_neg hd]

/-- The byte of a file at a position, if its page was ever written. -/
def fileByte (f : RamfsFile) (pos : ℕ) : Option UInt8 :=
  f.pages[pos % 2 ^ 64 / pageSize]?.join.map fun page => page (pos % 2 ^ 64 % pageSize)

theorem chunk_page (hc : chunkAt offset size done = (p, o, k)) (h1 : done ≤ i) (h2 : i < done + k) :
    (offset + i) % 2 ^ 64 / pageSize = p ∧ (offset + i) % 2 ^ 64 % pageSize = o + (i - done) := by
  obtain ⟨hp, hc⟩ := Prod.mk.inj hc
  obtain ⟨ho, hk⟩ := Prod.mk.inj hc
  unfold pageSize at *
  omega

/-- `ramfs_read` delivers the bytes of the file, and leaves the buffer alone where there are none. -/
theorem readLoop_eq (hn : size ≤ done + n) : readLoop f offset size n done buf i =
    if done ≤ i ∧ i < size then (fileByte f (offset + i)).getD (buf i) else buf i := by
  induction n generalizing done buf with
  | zero =>
    rw [if_neg (by omega)]
    rfl
  | succ n ih =>
    by_cases hd : done < size
    · rcases hc : chunkAt offset size done with ⟨p, o, k⟩
      have hk := chunk_bounds hc hd
      -- Inside the chunk the byte comes from its page, after it from the rest of the loop.
      have hbyte (h1 : done ≤ i) (h2 : i < done + k) :
          fileByte f (offset + i) = f.pages[p]?.join.map fun page => page (o + (i - done)) := by
        obtain ⟨hpage, hoff⟩ := chunk_page hc h1 h2
        rw [fileByte, hpage, hoff]
      rcases hp : f.pages[p]? with _ | _ | page
      all_goals
        simp only [readLoop, if_pos hd, hc, hp]
        rw [ih (by omega)]
        by_cases hhere : done ≤ i ∧ i < done + k
        · rw [if_neg (by omega), if_pos (show done ≤ i ∧ i < size by omega), hbyte hhere.1 hhere.2, hp]
          first | rfl | exact if_pos hhere
        · try rw [if_neg hhere]
          split_ifs <;> first | rfl | omega
    · rw [readLoop, if_neg hd, if_neg (by omega)]

/-! ### Writing -/

theorem writeLoopTouched_lt {present : List Bool} {clock : ℕ}
    (h : i ∈ writeLoopTouched A offset size n done present clock) : done ≤ i ∧ i < size := by
  induction n generalizing done present clock with
  | zero => cases h
  | succ n ih =>
    by_cases hd : done < size
    · rcases hc : chunkAt offset size done with ⟨p, o, k⟩
      have hk := chunk_bounds hc hd
      have hcases : ∀ {present : List Bool} {clock : ℕ}, i ∈ (List.range k).map (done + ·) ++
          writeLoopTouched A offset size n (done + k) present clock → done ≤ i ∧ i < size := by
        intro present clock hm
        rcases List.mem_append.mp hm with hm | hm
        · have := mem_chunk.mp hm
          omega
        · have := ih hm
          omega
      simp only [writeLoopTouched, if_pos hd, hc] at h
      split at h
      · cases h
      · exact hcases h
      · split at h
        · cases h
        · exact hcases h
    · rw [writeLoopTouched, if_neg hd] at h
      cases h

theorem putChunk_congr (page : Page) (h : ∀ i ∈ (List.range k).map (done + ·), buf' i = buf i) :
    (fun j => if o ≤ j ∧ j < o + k then buf' (done + (j - o)) else page j) =
      fun j => if o ≤ j ∧ j < o + k then buf (done + (j - o)) else page j := by
  funext j
  split_ifs with hj
  · exact h _ (mem_chunk.mpr (by omega))
  · rfl

theorem map_isSome_set (q : Page) :
    (pages.set p (some q)).map Option.isSome = (pages.map Option.isSome).set p true := by
  rw [List.map_set, Option.isSome_some]

theorem set_true_self {present : List Bool} (h : present[p]? = some true) : present.set p true = present := by
  obtain ⟨hp, hget⟩ := List.getElem?_eq_some_iff.mp h
  rw [← hget, List.set_getElem_self]

theorem writeLoop_congr
    (h : ∀ i ∈ writeLoopTouched A offset size n done (pages.map Option.isSome) s.clock, buf' i = buf i) :
    writeLoop A offset size buf' n done pages s = writeLoop A offset size buf n done pages s := by
  induction n generalizing done pages s with
  | zero => rfl
  | succ n ih =>
    by_cases hd : done < size
    · rcases hc : chunkAt offset size done with ⟨p, o, k⟩
      simp only [writeLoopTouched, if_pos hd, hc, List.getElem?_map] at h
      simp only [writeLoop, if_pos hd, hc]
      rcases hp : pages[p]? with _ | _ | page
      · rfl
      · simp only [hp, Option.map_some, Option.isSome_none] at h ⊢
        cases hpage : A.page s.clock with
        | none => rfl
        | some page =>
          simp only [hpage] at h ⊢
          rw [putChunk_congr page fun i hi => h i (List.mem_append_left _ hi)]
          refine ih fun i hi => h i (List.mem_append_right _ ?_)
          rwa [map_isSome_set] at hi
      · simp only [hp, Option.map_some, Option.isSome_some] at h ⊢
        rw [putChunk_congr page fun i hi => h i (List.mem_append_left _ hi)]
        refine ih fun i hi => h i (List.mem_append_right _ ?_)
        rwa [map_isSome_set, set_true_self (by rw [List.getElem?_map, hp]; rfl)] at hi
    · rw [writeLoop, writeLoop, if_neg hd, if_neg hd]

theorem writeLoop_all {pages' : List (Option Page)} (hn : size ≤ done + n)
    (h : writeLoop A offset size buf n done pages s = (.ok (), pages', s')) (h1 : done ≤ i) (h2 : i < size) :
    i ∈ writeLoopTouched A offset size n done (pages.map Option.isSome) s.clock := by
  induction n generalizing done pages s with
  | zero => omega
  | succ n ih =>
    have hd : done < size := by omega
    rcases hc : chunkAt offset size done with ⟨p, o, k⟩
    have hk := chunk_bounds hc hd
    simp only [writeLoop, if_pos hd, hc] at h
    simp only [writeLoopTouched, if_pos hd, hc, List.getElem?_map]
    have hcases : ∀ {present : List Bool} {clock : ℕ}, (done + k ≤ i →
        i ∈ writeLoopTouched A offset size n (done + k) present clock) →
        i ∈ (List.range k).map (done + ·) ++ writeLoopTouched A offset size n (done + k) present clock := by
      intro present clock hrest
      rcases Nat.lt_or_ge i (done + k) with hi | hi
      · exact List.mem_append_left _ (mem_chunk.mpr ⟨h1, hi⟩)
      · exact List.mem_append_right _ (hrest hi)
    rcases hp : pages[p]? with _ | _ | page
    · simp only [hp] at h
      cases h
    · simp only [hp, Option.map_some, Option.isSome_none] at h ⊢
      cases hpage : A.page s.clock with
      | none =>
        simp only [hpage] at h
        cases h
      | some page =>
        simp only [hpage] at h ⊢
        refine hcases fun hi => ?_
        have := ih (by omega) h hi
        rwa [map_isSome_set] at this
    · simp only [hp, Option.map_some, Option.isSome_some] at h ⊢
      refine hcases fun hi => ?_
      have := ih (by omega) h hi
      rwa [map_isSome_set, set_true_self (by rw [List.getElem?_map, hp]; rfl)] at this

/-! ### The operations -/

theorem ramfsRead_same (h : ramfsRead node offset buf size s = (.ok (k, buf'), s'))
    (hi : i ∉ ramfsReadTouched node offset size s) : buf' i = buf i := by
  unfold ramfsRead at h
  unfold ramfsReadTouched at hi
  dsimp only at h
  cases hf : (s.touch node).file? node with
  | none =>
    rw [hf] at h
    cases h
  | some f =>
    simp only [hf] at h hi
    split_ifs at h hi with hoff
    · obtain ⟨h, -⟩ := Prod.mk.inj h
      cases h
      rfl
    · obtain ⟨h, -⟩ := Prod.mk.inj h
      cases h
      exact readLoop_same hi

theorem ramfsReadTouched_lt (h : i ∈ ramfsReadTouched node offset size s) : i < size := by
  unfold ramfsReadTouched at h
  split at h
  · cases h
  · split_ifs at h
    · cases h
    · exact lt_of_lt_of_le (readLoopTouched_lt h).2 (Nat.min_le_left _ _)

theorem ramfsWriteTouched_lt (h : i ∈ ramfsWriteTouched A node offset size s) : i < size := by
  unfold ramfsWriteTouched at h
  dsimp only at h
  split at h
  · cases h
  · split at h
    · cases h
    · exact (writeLoopTouched_lt h).2

theorem ramfsWrite_congr
    (h : ∀ i ∈ ramfsWriteTouched A node offset size s, buf' i = buf i) :
    ramfsWrite A node offset buf' size s = ramfsWrite A node offset buf size s := by
  unfold ramfsWriteTouched at h
  unfold ramfsWrite
  dsimp only at h ⊢
  cases hf : (s.touch node).file? node with
  | none => rfl
  | some f =>
    simp only [hf] at h ⊢
    rcases hg : growPages A f (((offset + size) % 2 ^ 64 + pageSize - 1) % 2 ^ 64 / pageSize) (s.touch node) with ⟨_ | pages, s₁⟩
    · rfl
    · simp only [hg] at h ⊢
      rw [writeLoop_congr h]

theorem ramfsWrite_all (h : ramfsWrite A node offset buf size s = (.ok k, s'))
    (hi : i < size) : i ∈ ramfsWriteTouched A node offset size s := by
  unfold ramfsWrite at h
  unfold ramfsWriteTouched
  dsimp only at h ⊢
  cases hf : (s.touch node).file? node with
  | none =>
    rw [hf] at h
    cases h
  | some f =>
    simp only [hf] at h ⊢
    rcases hg : growPages A f (((offset + size) % 2 ^ 64 + pageSize - 1) % 2 ^ 64 / pageSize) (s.touch node) with ⟨_ | pages, s₁⟩
    · simp only [hg] at h
      cases h
    · simp only [hg] at h ⊢
      rcases hw : writeLoop A offset size buf size 0 pages s₁ with ⟨_ | ⟨⟩, pages', s₂⟩
      · simp only [hw] at h
        cases h
      · exact writeLoop_all (by omega) hw (Nat.zero_le i) hi

/-- A read or write of a vnode is one of RamFS, on the vnode itself or on that of the first layer. -/
theorem fsOps_read (node : Addr) (s : State) : (fsOps A g).read node offset buf size s =
    match realNode g node s with
    | none => (.error .eInvalid, s.touch node)
    | some real => ramfsRead real offset buf size (realState node s) := by
  unfold realNode realState
  change (if isOverlay node s then overlayRead g node offset buf size s else ramfsRead node offset buf size s) = _
  split_ifs
  · rfl
  · rfl

theorem fsOps_write (node : Addr) (s : State) : (fsOps A g).write node offset buf size s =
    match realNode g node s with
    | none => (.error .eInvalid, s.touch node)
    | some real => ramfsWrite A real offset buf size (realState node s) := by
  unfold realNode realState
  change (if isOverlay node s then overlayWrite A g node offset buf size s else ramfsWrite A node offset buf size s) = _
  split_ifs
  · rfl
  · rfl

/-- The operations of RamFS and the overlay, with what they touch. -/
def fileOps (A : Allocator) (g : Layers) : Syscall.FileOps State Addr where
  toVnodeOps := fsOps A g
  readTouched := fsReadTouched g
  writeTouched := fsWriteTouched A g
  read_lt node off size s i hi := by
    unfold fsReadTouched at hi
    split at hi
    · cases hi
    · exact ramfsReadTouched_lt hi
  write_lt node off size s i hi := by
    unfold fsWriteTouched at hi
    split at hi
    · cases hi
    · exact ramfsWriteTouched_lt hi
  read_same node off buf size s n buf' s' h i hi := by
    rw [fsOps_read] at h
    unfold fsReadTouched at hi
    cases hr : realNode g node s with
    | none =>
      rw [hr] at h
      cases h
    | some real =>
      simp only [hr] at h hi
      exact ramfsRead_same h hi
  write_congr node off buf buf' size s h := by
    rw [fsOps_write, fsOps_write]
    unfold fsWriteTouched at h
    cases hr : realNode g node s with
    | none => rfl
    | some real =>
      simp only [hr] at h ⊢
      exact ramfsWrite_congr h
  write_all node off buf size s n s' h i hi := by
    rw [fsOps_write] at h
    unfold fsWriteTouched
    cases hr : realNode g node s with
    | none =>
      rw [hr] at h
      cases h
    | some real =>
      simp only [hr] at h ⊢
      exact ramfsWrite_all h hi

end Tori.Fs
