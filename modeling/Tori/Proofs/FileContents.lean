import Tori.Spec.FileRun
import Tori.Proofs.FsSteady

/-! The contents of a RamFS file. The loop of `ramfs_write` gets up to some byte of the buffer: the bytes before it stand in
the file, the others are as they were, and no page is new but those of bytes that were stored. -/

namespace Tori.Fs

open Vfs Function

variable {A : Allocator} {g : Layers} {offset size n done : ℕ} {buf : ℕ → UInt8} {pages pages' : List (Option Page)} {s s' : State}

variable {upto p o k : ℕ} {node : Addr} {f : RamfsFile} {r : Except Err ℕ}

/-- The bytes `done` to `size` of the buffer stand in the pages from `offset` on, and no other byte is lost. -/
structure Stored (offset size done : ℕ) (buf : ℕ → UInt8) (pages pages' : List (Option Page)) : Prop where
  bytes : ∀ i, done ≤ i → i < size → fileByte ⟨pages', 0⟩ (offset + i) = some (buf i)
  others : ∀ pos b, (∀ i, done ≤ i → i < size → (offset + i) % 2 ^ 64 ≠ pos % 2 ^ 64) →
    fileByte ⟨pages, 0⟩ pos = some b → fileByte ⟨pages', 0⟩ pos = some b

/-- The page of a chunk after the copy. -/
def chunkPage (done : ℕ) (buf : ℕ → UInt8) (page : Page) (o k : ℕ) : Page := fun j =>
  if o ≤ j ∧ j < o + k then buf (done + (j - o)) else page j

variable {pos clock needed : ℕ} {page : Page} {bytes : List UInt8} {spans : List (ℕ × ℕ)}

theorem fileByte_set (q : Page) (hp : p < pages.length) : fileByte ⟨pages.set p (some q), 0⟩ pos =
    if pos % 2 ^ 64 / pageSize = p then some (q (pos % 2 ^ 64 % pageSize)) else fileByte ⟨pages, 0⟩ pos := by
  unfold fileByte
  split_ifs with hpage
  · rw [hpage, List.getElem?_set_self hp]
    rfl
  · rw [List.getElem?_set_ne (Ne.symm hpage)]

theorem fileByte_mod (f : RamfsFile) (pos : ℕ) : fileByte f (pos % 2 ^ 64) = fileByte f pos := by
  unfold fileByte
  rw [Nat.mod_mod]

theorem fileByte_isSome (f : RamfsFile) (pos : ℕ) :
    (fileByte f pos).isSome = f.pages[pos % 2 ^ 64 / pageSize]?.join.isSome := Option.isSome_map

theorem Stored.chunk (hsize : size < 2 ^ 64) (hupto : done + k ≤ upto) (hle : upto ≤ size)
    (hc : chunkAt offset size done = (p, o, k)) (hp : p < pages.length)
    (hpage : ∀ pos b, pos % 2 ^ 64 / pageSize = p → fileByte ⟨pages, 0⟩ pos = some b → page (pos % 2 ^ 64 % pageSize) = b)
    (h : Stored offset upto (done + k) buf (pages.set p (some (chunkPage done buf page o k))) pages') :
    Stored offset upto done buf pages pages' := by
  refine ⟨fun i h1 h2 => ?_, fun pos b hpos hb => ?_⟩
  · rcases Nat.lt_or_ge i (done + k) with hi | hi
    · obtain ⟨hidx, hoff⟩ := chunk_page hc h1 hi
      refine h.others _ _ (fun j hj1 hj2 => by omega) ?_
      rw [fileByte_set _ hp, if_pos hidx, hoff, chunkPage, if_pos (by omega)]
      congr 2
      omega
    · exact h.bytes i hi h2
  · refine h.others pos b (fun j hj1 hj2 => hpos j (by omega) hj2) ?_
    rw [fileByte_set _ hp]
    split_ifs with hidx
    · -- a byte of this page that the chunk does not cover
      rw [chunkPage, if_neg, hpage pos b hidx hb]
      rintro ⟨h1, h2⟩
      obtain ⟨hp₀, hc⟩ := Prod.mk.inj hc
      obtain ⟨ho, hk₀⟩ := Prod.mk.inj hc
      unfold pageSize at *
      exact hpos (done + (pos % 2 ^ 64 % 4096 - o)) (by omega) (by omega) (by omega)
    · exact hb

/-! ### The loop -/

/-- The loop of `ramfs_write` has come to the byte `upto`: to the end, to an index outside the page array, or to a page that
it could not get. -/
structure Stops (A : Allocator) (offset size n done : ℕ) (buf : ℕ → UInt8) (pages : List (Option Page)) (clock upto : ℕ)
    (pages' : List (Option Page)) (r : Except Err Unit) : Prop where
  ge : done ≤ upto
  le : upto ≤ size
  touched : ∀ i, i ∈ writeLoopTouched A offset size n done (pages.map Option.isSome) clock ↔ done ≤ i ∧ i < upto
  stored : Stored offset upto done buf pages pages'
  fresh : ∀ p, pages'[p]?.join.isSome = true → pages[p]?.join.isSome = true ∨
    ∃ i, done ≤ i ∧ i < upto ∧ (offset + i) % 2 ^ 64 / pageSize = p
  result : r = .ok () ∧ upto = size ∨ r = .error .eNoSpace ∧ (∃ c, A.page c = none) ∨
    r = .error .fault ∧ upto < size ∧ pages.length ≤ (offset + upto) % 2 ^ 64 / pageSize

theorem Stops.here {r : Except Err Unit} (hd : done ≤ size)
    (htouched : writeLoopTouched A offset size n done (pages.map Option.isSome) clock = [])
    (hr : r = .ok () ∧ done = size ∨ r = .error .eNoSpace ∧ (∃ c, A.page c = none) ∨
      r = .error .fault ∧ done < size ∧ pages.length ≤ (offset + done) % 2 ^ 64 / pageSize) :
    Stops A offset size n done buf pages clock done pages r := by
  refine ⟨le_rfl, hd, fun i => ?_, ⟨fun i h1 h2 => by omega, fun _ _ _ hb => hb⟩, fun p hp => .inl hp, hr⟩
  rw [htouched]
  exact iff_of_false List.not_mem_nil (by omega)

theorem Stops.chunk {clock' : ℕ} {r : Except Err Unit} (hsize : size < 2 ^ 64) (hd : done < size)
    (hc : chunkAt offset size done = (p, o, k)) (hp : p < pages.length)
    (hpage : ∀ pos b, pos % 2 ^ 64 / pageSize = p → fileByte ⟨pages, 0⟩ pos = some b → page (pos % 2 ^ 64 % pageSize) = b)
    (htouched : writeLoopTouched A offset size (n + 1) done (pages.map Option.isSome) clock =
      (List.range k).map (done + ·) ++
        writeLoopTouched A offset size n (done + k) ((pages.set p (some (chunkPage done buf page o k))).map Option.isSome) clock')
    (h : Stops A offset size n (done + k) buf (pages.set p (some (chunkPage done buf page o k))) clock' upto pages' r) :
    Stops A offset size (n + 1) done buf pages clock upto pages' r := by
  have hk := chunk_bounds hc hd
  have hge := h.ge
  refine ⟨by omega, h.le, fun i => ?_, h.stored.chunk hsize h.ge h.le hc hp hpage, fun q hq => ?_, ?_⟩
  · rw [htouched, List.mem_append, mem_chunk, h.touched]
    omega
  · rcases h.fresh q hq with hold | ⟨i, h1, h2, hi⟩
    · by_cases hqp : q = p
      · obtain ⟨hidx, -⟩ := chunk_page hc le_rfl (by omega)
        exact .inr ⟨done, le_rfl, by omega, hidx.trans hqp.symm⟩
      · rw [List.getElem?_set_ne (Ne.symm hqp)] at hold
        exact .inl hold
    · exact .inr ⟨i, by omega, h2, hi⟩
  · have hresult := h.result
    rwa [List.length_set] at hresult

theorem writeLoop_stops {r : Except Err Unit} (hsize : size < 2 ^ 64) (hd : done ≤ size) (hn : size ≤ done + n)
    (h : writeLoop A offset size buf n done pages s = (r, pages', s')) :
    ∃ upto, Stops A offset size n done buf pages s.clock upto pages' r := by
  induction n generalizing done pages s with
  | zero =>
    cases h
    exact ⟨done, .here hd rfl (.inl ⟨rfl, by omega⟩)⟩
  | succ n ih =>
    by_cases hlt : done < size
    · rcases hc : chunkAt offset size done with ⟨p, o, k⟩
      have hk := chunk_bounds hc hlt
      have hidx := (chunk_page hc le_rfl (by omega)).1
      have htouched := fun present clock => writeLoopTouched.eq_2 A offset size done present clock n
      simp only [if_pos hlt, hc] at htouched
      simp only [writeLoop, if_pos hlt, hc] at h
      rcases hget : pages[p]? with _ | _ | page
      · simp only [hget] at h
        cases h
        refine ⟨done, .here hd ?_ (.inr (.inr ⟨rfl, hlt, ?_⟩))⟩
        · rw [htouched, List.getElem?_map, hget]
          rfl
        · rw [hidx]
          exact List.getElem?_eq_none_iff.1 hget
      · simp only [hget] at h
        cases hpage : A.page s.clock with
        | none =>
          simp only [hpage] at h
          cases h
          refine ⟨done, .here hd ?_ (.inr (.inl ⟨rfl, s.clock, hpage⟩))⟩
          rw [htouched, List.getElem?_map, hget]
          simp [hpage]
        | some page =>
          simp only [hpage] at h
          obtain ⟨upto, hrest⟩ := ih (by omega) (by omega) h
          refine ⟨upto, .chunk hsize hlt hc (List.getElem?_eq_some_iff.1 hget).1 (fun pos b hpos hb => ?_) ?_ hrest⟩
          · rw [fileByte, hpos, hget] at hb
            cases hb
          · rw [htouched, List.getElem?_map, hget, map_isSome_set]
            simp [hpage]
      · simp only [hget] at h
        obtain ⟨upto, hrest⟩ := ih (by omega) (by omega) h
        refine ⟨upto, .chunk hsize hlt hc (List.getElem?_eq_some_iff.1 hget).1 (fun pos b hpos hb => ?_) ?_ hrest⟩
        · rw [fileByte, hpos, hget] at hb
          exact Option.some.inj hb
        · rw [htouched, List.getElem?_map, hget, map_isSome_set, set_true_self (by rw [List.getElem?_map, hget]; rfl)]
          rfl
    · rw [writeLoop, if_neg hlt] at h
      cases h
      exact ⟨done, .here hd (if_neg hlt) (.inl ⟨rfl, by omega⟩)⟩

/-! ### The call -/

theorem privateData_setData (s : State) (a b : Addr) (p : PrivateData) :
    ((s.setData a p).vnodes b).privateData = if b = a then p else (s.vnodes b).privateData := by
  unfold State.setData State.setVnode
  dsimp only
  split_ifs with hb
  · rw [hb, update_self]
  · rw [update_of_ne hb]

theorem file?_setData (s : State) (a : Addr) (f : RamfsFile) : (s.setData a (.file f)).file? a = some f := by
  rw [State.file?, privateData_setData, if_pos rfl]

theorem type_setData (s : State) (a b : Addr) (p : PrivateData) : ((s.setData a p).vnodes b).type = (s.vnodes b).type := by
  unfold State.setData State.setVnode
  dsimp only
  by_cases hb : b = a
  · rw [hb, update_self]
  · rw [update_of_ne hb]

theorem setData_file (hf : s.file? node = some f) : s.setData node (.file f) = s := by
  have hdata : (s.vnodes node).privateData = .file f := by
    unfold State.file? at hf
    split at hf
    · rename_i f' hdata
      rw [hdata, Option.some.inj hf]
    · cases hf
  unfold State.setData State.setVnode
  rw [← hdata, update_eq_self]

/-- The page array that `ramfs_write` asks for. -/
def pagesFor (offset size : ℕ) : ℕ := ((offset + size) % 2 ^ 64 + pageSize - 1) % 2 ^ 64 / pageSize

/-- New pages have no bytes yet, and there are enough of them. -/
theorem growPages_bytes (h : growPages A f needed s = (.ok pages, s')) :
    (∀ pos, fileByte ⟨pages, 0⟩ pos = fileByte f pos) ∧ needed ≤ pages.length := by
  unfold growPages at h
  split_ifs at h with hneeded
  · split at h
    · cases h
    · obtain ⟨h, -⟩ := Prod.mk.inj h
      cases h
      refine ⟨fun pos => ?_, by rw [List.length_append, List.length_replicate]; omega⟩
      unfold fileByte
      rcases Nat.lt_or_ge (pos % 2 ^ 64 / pageSize) f.pages.length with hlt | hge
      · rw [List.getElem?_append_left hlt]
      · rw [List.getElem?_append_right hge, List.getElem?_replicate, List.getElem?_eq_none hge]
        split_ifs <;> rfl
  · obtain ⟨h, -⟩ := Prod.mk.inj h
    cases h
    exact ⟨fun _ => rfl, by omega⟩

theorem growPages_error {e : Err} (h : growPages A f needed s = (.error e, s')) :
    e = .eNoSpace ∧ A.block s.clock = false := by
  unfold growPages allocBlock at h
  split_ifs at h
  · cases hb : A.block s.clock with
    | true =>
      simp only [hb] at h
      cases h
    | false =>
      simp only [hb] at h
      obtain ⟨h, -⟩ := Prod.mk.inj h
      exact ⟨(Except.error.inj h).symm, rfl⟩
  · cases h

/-- The file after a call of `ramfs_write` that stored the bytes before `upto`. -/
structure WriteEnds (A : Allocator) (node : Addr) (offset : ℕ) (buf : ℕ → UInt8) (size : ℕ) (s : State) (f : RamfsFile)
    (r : Except Err ℕ) (f' : RamfsFile) (upto : ℕ) : Prop where
  le : upto ≤ size
  touched : ∀ i, i ∈ ramfsWriteTouched A node offset size s ↔ i < upto
  stored : Stored offset upto 0 buf f.pages f'.pages
  fresh : ∀ pos, (fileByte f' pos).isSome = true → (fileByte f pos).isSome = true ∨
    ∃ i < upto, (offset + i) % 2 ^ 64 / pageSize = pos % 2 ^ 64 / pageSize
  result : (r = .ok size ∧ upto = size ∧ f'.size = max f.size ((offset + size) % 2 ^ 64)) ∨
    f'.size = f.size ∧ (r = .error .eNoSpace ∧ (∃ c, A.block c = false ∨ A.page c = none) ∨
      r = .error .fault ∧ upto < size ∧ pagesFor offset size ≤ (offset + upto) % 2 ^ 64 / pageSize)

theorem ramfsWrite_ends (hsize : size < 2 ^ 64) (hf : s.file? node = some f)
    (h : ramfsWrite A node offset buf size s = (r, s')) :
    ∃ f' upto c, WriteEnds A node offset buf size s f r f' upto ∧
      s' = { s.touch node with clock := c }.setData node (.file f') := by
  have hf' : (s.touch node).file? node = some f := hf
  have htouched := ramfsWriteTouched.eq_1 A node offset size s
  unfold ramfsWrite at h
  simp only [hf'] at h htouched
  rw [show ((offset + size) % 2 ^ 64 + pageSize - 1) % 2 ^ 64 / pageSize = pagesFor offset size from rfl] at h htouched
  rcases hg : growPages A f (pagesFor offset size) (s.touch node) with ⟨e | pages, s₁⟩
  · simp only [hg] at h htouched
    cases h
    obtain ⟨c, rfl⟩ := growPages_same hg
    obtain ⟨rfl, hblock⟩ := growPages_error hg
    refine ⟨f, 0, c, ⟨Nat.zero_le _, fun i => ?_, ⟨fun i _ hi => by omega, fun _ _ _ hb => hb⟩, fun pos hpos => .inl hpos,
      .inr ⟨rfl, .inl ⟨rfl, _, .inl hblock⟩⟩⟩,
      (setData_file (s := { s.touch node with clock := c }) hf').symm⟩
    rw [htouched]
    exact iff_of_false List.not_mem_nil (Nat.not_lt_zero i)
  · simp only [hg] at h htouched
    obtain ⟨hbytes, hlen⟩ := growPages_bytes hg
    obtain ⟨c₁, rfl⟩ := growPages_same hg
    rcases hw : writeLoop A offset size buf size 0 pages { s.touch node with clock := c₁ } with ⟨r', pages', s₂⟩
    obtain ⟨upto, hstops⟩ := writeLoop_stops hsize (Nat.zero_le size) (by omega) hw
    obtain ⟨c₂, rfl⟩ := writeLoop_same _ _ _ _ hw
    simp only [hw] at h
    have hstored : Stored offset upto 0 buf f.pages pages' :=
      ⟨hstops.stored.bytes, fun pos b hpos hb => hstops.stored.others pos b hpos (by rw [hbytes]; exact hb)⟩
    have htouched' : ∀ i, i ∈ ramfsWriteTouched A node offset size s ↔ i < upto := fun i => by
      rw [htouched, hstops.touched]
      exact and_iff_right (Nat.zero_le i)
    have hfresh : ∀ m pos, (fileByte ⟨pages', m⟩ pos).isSome = true → (fileByte f pos).isSome = true ∨
        ∃ i < upto, (offset + i) % 2 ^ 64 / pageSize = pos % 2 ^ 64 / pageSize := by
      intro m pos hpos
      rw [fileByte_isSome] at hpos
      rcases hstops.fresh _ hpos with hold | ⟨i, -, hi, hidx⟩
      · rw [← hbytes, fileByte_isSome]
        exact .inl hold
      · exact .inr ⟨i, hi, hidx⟩
    rcases hstops.result with ⟨rfl, hupto⟩ | ⟨rfl, c, hpage⟩ | ⟨rfl, hlt, hidx⟩
    · cases h
      exact ⟨_, upto, c₂, ⟨hstops.le, htouched', hstored, hfresh _, .inl ⟨rfl, hupto, rfl⟩⟩, rfl⟩
    · cases h
      exact ⟨_, upto, c₂, ⟨hstops.le, htouched', hstored, hfresh _, .inr ⟨rfl, .inl ⟨rfl, c, .inr hpage⟩⟩⟩, rfl⟩
    · cases h
      exact ⟨_, upto, c₂, ⟨hstops.le, htouched', hstored, hfresh _,
        .inr ⟨rfl, .inr ⟨rfl, hlt, hlen.trans hidx⟩⟩⟩, rfl⟩

/-- Where the end can be rounded up in 64 bits, every byte of the write has its page in the array. -/
theorem lt_pagesFor (h : offset + size + pageSize ≤ 2 ^ 64) (hu : upto < size) :
    (offset + upto) % 2 ^ 64 / pageSize < pagesFor offset size := by
  unfold pagesFor pageSize at *
  omega

theorem WriteEnds.no_fault {f' : RamfsFile} (h : WriteEnds A node offset buf size s f r f' upto)
    (hend : size = 0 ∨ offset + size + pageSize ≤ 2 ^ 64) : r ≠ .error .fault := by
  rintro rfl
  rcases h.result with ⟨hr, -⟩ | ⟨-, ⟨hr, -⟩ | ⟨-, hlt, hidx⟩⟩
  · cases hr
  · cases hr
  · have := lt_pagesFor (hend.resolve_left (by omega)) hlt
    omega

/-! ### Reference bytes -/

theorem ramfsRead_eq (hf : s.file? node = some f) :
    (ramfsRead node offset buf size s).1 = .ok (min size (f.size - offset),
      readLoop f offset (min size (f.size - offset)) (min size (f.size - offset)) 0 buf) := by
  have hf' : (s.touch node).file? node = some f := hf
  unfold ramfsRead
  simp only [hf']
  split_ifs with hoff
  · rw [Nat.sub_eq_zero_of_le hoff, Nat.min_zero]
    rfl
  · rfl

/-- The file holds `bytes` and nothing is missing. -/
structure Holds (node : Addr) (bytes : List UInt8) (s : State) : Prop where
  type : (s.vnodes node).type = .file
  file : ∃ f, s.file? node = some f ∧ f.size = bytes.length ∧ f.size < 2 ^ 63 ∧ ∀ k < f.size, fileByte f k = bytes[k]?

theorem Holds.readsAs (h : Holds node bytes s) : ReadsAs node bytes s := by
  obtain ⟨f, hf, hlen, -, hbytes⟩ := h.file
  refine ⟨⟨f, hf, hlen⟩, fun offset buf n => ⟨_, by rw [ramfsRead_eq hf, hlen], fun k hk => ?_, fun k hk => ?_⟩, ?_⟩
  · rw [readLoop_eq (by omega), if_pos ⟨Nat.zero_le k, hk⟩, hbytes _ (by omega), List.getElem?_eq_getElem (by omega)]
    rfl
  · rw [readLoop_eq (by omega), if_neg (by omega)]
  · have hf' : (s.touch node).file? node = some f := hf
    unfold ramfsStat
    simp only [State.vnodes_touch, h.type, hf', hlen]

theorem getElem?_layOver {data : List UInt8} (hoff : offset ≤ bytes.length) (k : ℕ) :
    (layOver bytes offset data)[k]? = if offset ≤ k ∧ k < offset + data.length then data[k - offset]? else bytes[k]? := by
  unfold layOver
  rcases Nat.lt_or_ge k offset with hk | hk
  · rw [List.append_assoc, List.getElem?_append_left (by simp; omega), List.getElem?_take_of_lt hk, if_neg (by omega)]
  · rcases Nat.lt_or_ge k (offset + data.length) with hk' | hk'
    · rw [List.append_assoc, List.getElem?_append_right (by simp; omega), List.getElem?_append_left (by simp; omega),
        if_pos ⟨hk, hk'⟩, List.length_take, Nat.min_eq_left hoff]
    · rw [List.getElem?_append_right (by simp; omega), List.getElem?_drop, if_neg (by omega)]
      congr 1
      simp
      omega

theorem Holds.write {bytes : List UInt8} (hblock : ∀ c, A.block c = true) (hpage : ∀ c, (A.page c).isSome = true)
    (h : Holds node bytes s) (hf : s.file? node = some f) (hoffset : offset ≤ f.size) (hend : offset + size < 2 ^ 63) :
    Holds node (layOver bytes offset ((List.range size).map buf)) (ramfsWrite A node offset buf size s).2 := by
  obtain ⟨f₀, hf₀, hlen, hsmall, hbytes⟩ := h.file
  obtain rfl := Option.some.inj (hf₀.symm.trans hf)
  rcases hcall : ramfsWrite A node offset buf size s with ⟨r, s'⟩
  obtain ⟨f', upto, c, hends, rfl⟩ := ramfsWrite_ends (by omega) hf hcall
  have hnofault := hends.no_fault (.inr (by unfold pageSize; omega))
  obtain ⟨-, rfl, hsize⟩ : r = .ok size ∧ upto = size ∧ f'.size = max f₀.size ((offset + size) % 2 ^ 64) := by
    rcases hends.result with hr | ⟨-, ⟨-, c, hc | hc⟩ | ⟨hr, -⟩⟩
    · exact hr
    · rw [hblock] at hc
      cases hc
    · have := hpage c
      rw [hc] at this
      cases this
    · exact absurd hr hnofault
  rw [Nat.mod_eq_of_lt (by omega)] at hsize
  have hdata : ((List.range upto).map buf).length = upto := by simp
  refine ⟨(type_setData _ _ _ _).trans h.type, f', file?_setData _ _ _, ?_, by omega, fun k hk => ?_⟩
  · rw [hsize, layOver, List.length_append, List.length_append, List.length_take, List.length_drop, hdata]
    omega
  · rw [getElem?_layOver (by omega), hdata]
    split_ifs with hin
    · have hstored := hends.stored.bytes (k - offset) (Nat.zero_le _) (by omega)
      rw [Nat.add_sub_cancel' hin.1] at hstored
      rw [List.getElem?_map, List.getElem?_range (by omega)]
      exact hstored
    · have hold : k < f₀.size := by omega
      have hget := hbytes k hold
      rw [List.getElem?_eq_getElem (by omega)] at hget ⊢
      exact hends.stored.others k _ (fun i _ hi => by omega) hget

/-- Reads and `stat` see the writes laid over each other in order. -/
theorem file_contents {bytes : List UInt8} {s₀ : State} (hblock : ∀ c, A.block c = true)
    (hpage : ∀ c, (A.page c).isSome = true) (htype : (s₀.vnodes node).type = .file) (hnew : s₀.file? node = some ⟨[], 0⟩)
    (hrun : Written A node s₀ bytes s) : ReadsAs node bytes s := by
  refine Holds.readsAs ?_
  induction hrun with
  | start => exact ⟨htype, ⟨[], 0⟩, hnew, rfl, by decide, fun k hk => absurd hk (Nat.not_lt_zero k)⟩
  | write _ offset buf size hf hoffset hend ih => exact ih.write hblock hpage hf hoffset hend

/-- An empty file. -/
def emptyFile : State := ⟨fun _ => ⟨.file, .file ⟨[], 0⟩, 1, none⟩, fun _ => true, false, 0⟩

theorem file_contents_seven : ReadsAs 0 [7] (ramfsWrite bump 0 0 (fun _ => 7) 1 emptyFile).2 :=
  file_contents (fun _ => rfl) (fun _ => rfl) rfl rfl (.write .start 0 (fun _ => 7) 1 rfl (by decide) (by decide))

/-! ### Failed writes -/

/-- One page of a file of 4096 zeros. -/
def fullPage : RamfsFile := ⟨[some fun _ => 0], 4096⟩

def onePage : State := { emptyFile with vnodes := fun _ => ⟨.file, .file fullPage, 1, none⟩ }

def noPages : Allocator := { bump with page := fun _ => none }

variable {A' : Allocator} {s₂ : State} {f₂ : RamfsFile} {pages₂ : List (Option Page)}

theorem isSome_eq_cases {x y : Option Page} (h : y.isSome = x.isSome) :
    (x = none ∧ y = none) ∨ ∃ q q', x = some q ∧ y = some q' := by
  cases x <;> cases y <;> simp_all

theorem map_isSome_eq_cases {x y : Option (Option Page)} (h : y.map Option.isSome = x.map Option.isSome) :
    (x = none ∧ y = none) ∨ (x = some none ∧ y = some none) ∨ ∃ q q', x = some (some q) ∧ y = some (some q') := by
  rcases x with _ | _ | q <;> rcases y with _ | _ | q' <;> simp_all

theorem writeLoopTouched_congr (hpage : ∀ c, (A'.page c).isSome = (A.page c).isSome) {present : List Bool} :
    writeLoopTouched A' offset size n done present clock = writeLoopTouched A offset size n done present clock := by
  induction n generalizing done present clock with
  | zero => rfl
  | succ n ih =>
    simp only [writeLoopTouched, ih]
    rcases isSome_eq_cases (hpage clock) with ⟨hp, hp'⟩ | ⟨q, q', hp, hp'⟩ <;> simp only [hp, hp']

/-- The loops take the same turns. -/
theorem writeLoop_twin (offset size : ℕ) (buf : ℕ → UInt8) (n done : ℕ)
    (hpage : ∀ c, (A'.page c).isSome = (A.page c).isSome)
    (hpages : pages₂.map Option.isSome = pages.map Option.isSome) (hclock : s₂.clock = s.clock) :
    (writeLoop A' offset size buf n done pages₂ s₂).1 = (writeLoop A offset size buf n done pages s).1 ∧
      (writeLoop A' offset size buf n done pages₂ s₂).2.1.map Option.isSome =
        (writeLoop A offset size buf n done pages s).2.1.map Option.isSome ∧
      (writeLoop A' offset size buf n done pages₂ s₂).2.2.clock = (writeLoop A offset size buf n done pages s).2.2.clock := by
  induction n generalizing done pages pages₂ s s₂ with
  | zero => exact ⟨rfl, hpages, hclock⟩
  | succ n ih =>
    by_cases hd : done < size
    · rcases hc : chunkAt offset size done with ⟨p, o, k⟩
      have hget : pages₂[p]?.map Option.isSome = pages[p]?.map Option.isSome := by
        rw [← List.getElem?_map, ← List.getElem?_map, hpages]
      have hset : ∀ q q', (pages₂.set p (some q)).map Option.isSome = (pages.set p (some q')).map Option.isSome :=
        fun q q' => by rw [map_isSome_set, map_isSome_set, hpages]
      simp only [writeLoop, if_pos hd, hc]
      rcases map_isSome_eq_cases hget with ⟨hp, hp₂⟩ | ⟨hp, hp₂⟩ | ⟨q, q₂, hp, hp₂⟩
      · rw [hp, hp₂]
        exact ⟨rfl, hpages, hclock⟩
      · rw [hp, hp₂, hclock]
        rcases isSome_eq_cases (hpage s.clock) with ⟨ha, ha'⟩ | ⟨q, q', ha, ha'⟩
        · rw [ha, ha']
          exact ⟨rfl, hpages, rfl⟩
        · rw [ha, ha']
          exact ih _ (hset _ _) rfl
      · rw [hp, hp₂]
        exact ih _ (hset _ _) hclock
    · rw [writeLoop, writeLoop, if_neg hd, if_neg hd]
      exact ⟨rfl, hpages, hclock⟩

theorem growPages_twin (hA : SameAnswers A A') (hpages : f₂.pages.map Option.isSome = f.pages.map Option.isSome)
    (hclock : s₂.clock = s.clock) (needed : ℕ) :
    (∃ e t t₂, growPages A f needed s = (.error e, t) ∧ growPages A' f₂ needed s₂ = (.error e, t₂) ∧ t₂.clock = t.clock) ∨
      ∃ pages pages₂ t t₂, growPages A f needed s = (.ok pages, t) ∧ growPages A' f₂ needed s₂ = (.ok pages₂, t₂) ∧
        pages₂.map Option.isSome = pages.map Option.isSome ∧ t₂.clock = t.clock := by
  have hlen : f₂.pages.length = f.pages.length := by simpa using congrArg List.length hpages
  unfold growPages allocBlock
  rw [hlen, hclock, hA.block]
  by_cases hneeded : needed > f.pages.length
  · simp only [if_pos hneeded]
    cases A.block s.clock with
    | false => exact .inl ⟨_, _, _, rfl, rfl, rfl⟩
    | true => exact .inr ⟨_, _, _, _, rfl, rfl, by rw [List.map_append, List.map_append, hpages], rfl⟩
  · simp only [if_neg hneeded]
    exact .inr ⟨_, _, _, _, rfl, rfl, hpages, hclock⟩

/-- What the two machines have in common: every byte of the file is there, was written, and is the same on both. -/
structure Twin (node : Addr) (spans : List (ℕ × ℕ)) (s s₂ : State) (f f₂ : RamfsFile) : Prop where
  clock : s₂.clock = s.clock
  file : s.file? node = some f
  file₂ : s₂.file? node = some f₂
  size : f₂.size = f.size
  small : f.size < 2 ^ 64
  pages : f₂.pages.map Option.isSome = f.pages.map Option.isSome
  byte : ∀ k < f.size, ∃ b, fileByte f k = some b ∧ fileByte f₂ k = some b
  covered : ∀ k < f.size, ∃ p ∈ spans, p.1 ≤ k ∧ k < p.1 + p.2

theorem Twin.answers (hA : SameAnswers A A') (h : Twin node spans s s₂ f f₂) (offset : ℕ)
    (buf : ℕ → UInt8) (size : ℕ) :
    (ramfsWrite A' node offset buf size s₂).1 = (ramfsWrite A node offset buf size s).1 ∧
      (ramfsWrite A' node offset buf size s₂).2.clock = (ramfsWrite A node offset buf size s).2.clock ∧
      ramfsWriteTouched A' node offset size s₂ = ramfsWriteTouched A node offset size s ∧
      ∀ f' f₂', (ramfsWrite A node offset buf size s).2.file? node = some f' →
        (ramfsWrite A' node offset buf size s₂).2.file? node = some f₂' →
          f₂'.pages.map Option.isSome = f'.pages.map Option.isSome := by
  have hf : (s.touch node).file? node = some f := h.file
  have hf₂ : (s₂.touch node).file? node = some f₂ := h.file₂
  have hclock : (s₂.touch node).clock = (s.touch node).clock := h.clock
  unfold ramfsWrite ramfsWriteTouched
  simp only [hf, hf₂]
  rcases growPages_twin hA h.pages hclock (((offset + size) % 2 ^ 64 + pageSize - 1) % 2 ^ 64 / pageSize) with
    ⟨e, t, t₂, hg, hg₂, ht⟩ | ⟨pages, pages₂, t, t₂, hg, hg₂, hpages, ht⟩
  · simp only [hg, hg₂]
    obtain ⟨c, rfl⟩ := growPages_same hg
    obtain ⟨c₂, rfl⟩ := growPages_same hg₂
    refine ⟨by trivial, ht, by trivial, fun f' f₂' hf' hf₂' => ?_⟩
    obtain rfl := Option.some.inj (hf.symm.trans hf')
    obtain rfl := Option.some.inj (hf₂.symm.trans hf₂')
    exact h.pages
  · simp only [hg, hg₂]
    obtain ⟨hr, hpages', hclock'⟩ := writeLoop_twin offset size buf size 0 hA.page hpages ht
    rw [hpages, ht, writeLoopTouched_congr hA.page]
    rcases hw : writeLoop A offset size buf size 0 pages t with ⟨r, pages', t'⟩
    rcases hw₂ : writeLoop A' offset size buf size 0 pages₂ t₂ with ⟨r₂, pages₂', t₂'⟩
    rw [hw, hw₂] at hr hpages' hclock'
    obtain rfl : r₂ = r := hr
    cases r₂ with
    | error e =>
      refine ⟨rfl, hclock', rfl, fun f' f₂' hf' hf₂' => ?_⟩
      rw [file?_setData] at hf' hf₂'
      cases hf'
      cases hf₂'
      exact hpages'
    | ok _ =>
      refine ⟨rfl, hclock', rfl, fun f' f₂' hf' hf₂' => ?_⟩
      rw [file?_setData] at hf' hf₂'
      cases hf'
      cases hf₂'
      exact hpages'

theorem Twin.write {spans : List (ℕ × ℕ)} (hA : SameAnswers A A') (h : Twin node spans s s₂ f f₂) (hoffset : offset < 2 ^ 64)
    (hsize : size < 2 ^ 64) (hok : NoHole A node s offset buf size) :
    ∃ f' f₂', Twin node ((offset, size) :: spans) (ramfsWrite A node offset buf size s).2
      (ramfsWrite A' node offset buf size s₂).2 f' f₂' := by
  obtain ⟨hr, hclock, htouched, hpages⟩ := h.answers hA offset buf size
  obtain ⟨hend, hhole⟩ := hok
  rcases hcall : ramfsWrite A node offset buf size s with ⟨r, t⟩
  rcases hcall₂ : ramfsWrite A' node offset buf size s₂ with ⟨r₂, t₂⟩
  rw [hcall, hcall₂] at hr hclock hpages
  rw [hcall] at hhole
  obtain rfl : r₂ = r := hr
  obtain ⟨f', upto, c, hends, rfl⟩ := ramfsWrite_ends hsize h.file hcall
  obtain ⟨f₂', upto₂, c₂, hends₂, rfl⟩ := ramfsWrite_ends hsize h.file₂ hcall₂
  have hupto : ∀ i, i < upto₂ ↔ i < upto := fun i => by rw [← hends.touched, ← hends₂.touched, htouched]
  obtain rfl : upto₂ = upto := le_antisymm (not_lt.1 fun hlt => lt_irrefl _ ((hupto _).1 hlt))
    (not_lt.1 fun hlt => lt_irrefl _ ((hupto _).2 hlt))
  -- below the old end the bytes are those stored now or those from before
  have hbyte : ∀ k < 2 ^ 64, (k < f.size ∨ ∃ i < upto₂, (offset + i) % 2 ^ 64 = k) →
      ∃ b, fileByte f' k = some b ∧ fileByte f₂' k = some b := by
    intro k hk hor
    have hk64 : k % 2 ^ 64 = k := Nat.mod_eq_of_lt hk
    by_cases hin : ∃ i < upto₂, (offset + i) % 2 ^ 64 = k
    · obtain ⟨i, hi, rfl⟩ := hin
      exact ⟨buf i, (fileByte_mod _ _).trans (hends.stored.bytes i (Nat.zero_le i) hi),
        (fileByte_mod _ _).trans (hends₂.stored.bytes i (Nat.zero_le i) hi)⟩
    · have hapart : ∀ i, 0 ≤ i → i < upto₂ → (offset + i) % 2 ^ 64 ≠ k % 2 ^ 64 := fun i _ hi he => hin ⟨i, hi, he.trans hk64⟩
      obtain ⟨b, hb, hb₂⟩ := h.byte k (hor.resolve_right hin)
      exact ⟨b, hends.stored.others k b hapart hb, hends₂.stored.others k b hapart hb₂⟩
  have hspan : ∀ k < f.size, ∃ p ∈ (offset, size) :: spans, p.1 ≤ k ∧ k < p.1 + p.2 := fun k hk =>
    (h.covered k hk).imp fun p hp => ⟨List.mem_cons_of_mem _ hp.1, hp.2⟩
  have htwin : ∀ n, f'.size = n → f₂'.size = n → n < 2 ^ 64 →
      (∀ k < n, (k < f.size ∨ ∃ i < upto₂, (offset + i) % 2 ^ 64 = k)) →
      (∀ k < n, f.size ≤ k → offset ≤ k ∧ k < offset + size) →
      Twin node ((offset, size) :: spans) ({ s.touch node with clock := c }.setData node (.file f'))
        ({ s₂.touch node with clock := c₂ }.setData node (.file f₂')) f' f₂' := by
    rintro n rfl hn₂ hn hreach hcover
    refine ⟨hclock, file?_setData _ _ _, file?_setData _ _ _, hn₂, hn, hpages f' f₂' (file?_setData _ _ _) (file?_setData _ _ _),
      fun k hk => hbyte k (by omega) (hreach k hk), fun k hk => ?_⟩
    rcases Nat.lt_or_ge k f.size with hlt | hge
    · exact hspan k hlt
    · exact ⟨_, List.mem_cons_self, hcover k hk hge⟩
  rcases hends.result with ⟨rfl, rfl, hsz⟩ | ⟨hsz, hr⟩ <;> rcases hends₂.result with ⟨hr₂, -, hsz₂⟩ | ⟨hsz₂, hr₂⟩
  · have hle := hhole f _ h.file rfl
    have hsmall := h.small
    refine ⟨f', f₂', htwin _ hsz (by rw [hsz₂, h.size]) (by omega) (fun k hk => ?_) fun k hk hge => ?_⟩
    · rcases Nat.lt_or_ge k f.size with hlt | hge
      · exact .inl hlt
      · refine .inr ⟨k - offset, ?_, ?_⟩ <;> unfold pageSize at hend <;> omega
    · omega
  · rcases hr₂ with ⟨hr₂, -⟩ | ⟨hr₂, -⟩ <;> cases hr₂
  · subst hr₂
    rcases hr with ⟨hr, -⟩ | ⟨hr, -⟩ <;> cases hr
  · refine ⟨f', f₂', htwin _ hsz (by rw [hsz₂, h.size]) h.small (fun k hk => .inl hk) fun k hk hge => by omega⟩

theorem Twin.noLeak (h : Twin node spans s s₂ f f₂) : NoLeak node spans s s₂ := by
  intro offset size buf buf'
  refine ⟨_, _, _, ramfsRead_eq h.file, by rw [ramfsRead_eq h.file₂, h.size], fun i hi => ?_⟩
  obtain ⟨b, hb, hb₂⟩ := h.byte (offset + i) (by omega)
  rw [readLoop_eq (by omega), readLoop_eq (by omega), if_pos ⟨Nat.zero_le i, hi⟩, if_pos ⟨Nat.zero_le i, hi⟩, hb, hb₂]
  refine ⟨rfl, fun hno => ?_⟩
  obtain ⟨p, hp, hin⟩ := h.covered (offset + i) (by omega)
  exact absurd hin (hno p hp)

/-- As long as no write leaves a hole, what was in the pages and in the buffers does not show. -/
theorem no_leak {spans : List (ℕ × ℕ)} {s₀ s₀' : State} (hA : SameAnswers A A') (hclock : s₀'.clock = s₀.clock)
    (hnew : s₀.file? node = some ⟨[], 0⟩) (hnew' : s₀'.file? node = some ⟨[], 0⟩)
    (hrun : TwoRuns A A' node (NoHole A node) s₀ s₀' spans s s') : NoLeak node spans s s' := by
  have htwin : ∃ f f', Twin node spans s s' f f' := by
    induction hrun with
    | start =>
      exact ⟨_, _, hclock, hnew, hnew', rfl, by decide, rfl, fun k hk => absurd hk (Nat.not_lt_zero k),
        fun k hk => absurd hk (Nat.not_lt_zero k)⟩
    | write _ offset buf size hoffset hsize hok ih =>
      obtain ⟨f, f', h⟩ := ih
      exact h.write hA hoffset hsize hok
  obtain ⟨f, f', h⟩ := htwin
  exact h.noLeak

/-- New pages full of sevens. -/
def oldSecrets : Allocator := { bump with page := fun _ => some fun _ => 7 }

theorem no_leak_first_byte : NoLeak 0 [(0, 1)] (ramfsWrite bump 0 0 (fun _ => 1) 1 emptyFile).2
    (ramfsWrite oldSecrets 0 0 (fun _ => 1) 1 emptyFile).2 :=
  no_leak (show SameAnswers bump oldSecrets from ⟨rfl, fun _ => rfl⟩) rfl rfl rfl
    (.write .start 0 (fun _ => 1) 1 (by decide) (by decide) ⟨.inr (by decide), fun _ _ _ _ => Nat.zero_le _⟩)

/-- The byte in front of the first one written. -/
theorem hole_leaks : ¬ NoLeak 0 [(1, 1)] (ramfsWrite bump 0 1 (fun _ => 1) 1 emptyFile).2
    (ramfsWrite oldSecrets 0 1 (fun _ => 1) 1 emptyFile).2 := by
  intro h
  obtain ⟨k, b, b', hb, hb', hsame⟩ := h 0 1 (fun _ => 0) fun _ => 0
  cases hb
  cases hb'
  have := (hsame 0 (by decide)).1
  revert this
  decide

end Tori.Fs
