import Tori.Spec.Keyboard

/-! The lines that `read_line` returns are those of the characters typed, however the interrupts and the reads
interleave. The ring, the character that the handler is about to push and the one that the reader has taken out hold
together exactly what was typed and not yet edited. -/

namespace Tori.Keyboard

open Function
open Vfs (Str)

variable {m m' : Machine} {t : Terminal} {c : UInt8} {r : Ring bufSize UInt8}

/-! ### The terminal edits -/

/-- The line so far. -/
def Terminal.text (t : Terminal) : Str := (List.range t.pos).map t.line

/-- Between two characters. -/
structure Terminal.Ok (t : Terminal) : Prop where
  ready : t.lineReady = false
  bound : t.pos ≤ 255

@[simp] theorem length_text (t : Terminal) : t.text.length = t.pos := by simp [Terminal.text]

theorem text_store (line : ℕ → UInt8) (pos : ℕ) (x : UInt8) :
    (List.range pos).map (update line pos x) = (List.range pos).map line := by
  refine List.map_congr_left fun i hi => update_of_ne ?_ _ _
  exact (List.mem_range.mp hi).ne

/-- `put_char` completes the line at a newline and edits it as the reference does otherwise. -/
theorem putChar_edit (h : t.Ok) (lines : List Str) (c : UInt8) :
    ((putChar c t).lineReady = true ∧ (putChar c t).pos = t.pos ∧ (putChar c t).text = t.text ∧
      edit (lines, t.text) c = (lines ++ [t.text], [])) ∨
    ((putChar c t).Ok ∧ edit (lines, t.text) c = (lines, (putChar c t).text)) := by
  obtain ⟨hready, hbound⟩ := h
  unfold putChar edit
  rw [if_neg (by simp [hready])]
  by_cases hnl : c = 10
  · subst hnl
    left
    simp only [if_neg (show ¬(10 : UInt8) = 8 by decide), if_true, true_and]
    exact ⟨text_store t.line t.pos 10, trivial⟩
  by_cases hbs : c = 8
  · right
    subst hbs
    simp only [if_true, if_neg hnl]
    by_cases hpos : t.pos > 0
    · rw [if_pos hpos]
      refine ⟨⟨hready, by dsimp only; omega⟩, ?_⟩
      have hsplit : t.pos = t.pos - 1 + 1 := by omega
      simp only [Terminal.text, Prod.mk.injEq, true_and]
      rw [hsplit, List.range_succ, List.map_append, List.map_singleton, List.dropLast_concat]
      rfl
    · rw [if_neg hpos]
      refine ⟨⟨hready, hbound⟩, ?_⟩
      have hnil : t.text = [] := List.eq_nil_of_length_eq_zero (by rw [length_text]; omega)
      rw [hnil]
      rfl
  right
  simp only [if_neg hnl, if_neg hbs, length_text]
  by_cases hprint : c < 0x20 ∨ c > 0x7E
  · rw [if_pos hprint, if_neg]
    · exact ⟨⟨hready, hbound⟩, rfl⟩
    · rintro ⟨hlo, hhi, -⟩
      rcases hprint with hlt | hgt
      · exact absurd hlo (UInt8.not_le.mpr hlt)
      · exact absurd hhi (UInt8.not_le.mpr hgt)
  · rw [if_neg hprint]
    obtain ⟨hlo, hhi⟩ := not_or.mp hprint
    by_cases hroom : t.pos < lineBufSize - 1
    · rw [if_pos hroom, if_pos ⟨UInt8.not_lt.mp hlo, UInt8.not_lt.mp hhi, hroom⟩]
      refine ⟨⟨hready, Nat.succ_le_of_lt hroom⟩, ?_⟩
      simp only [Terminal.text, Prod.mk.injEq, true_and]
      rw [List.range_succ, List.map_append, text_store, List.map_singleton, update_self]
    · rw [if_neg hroom, if_neg (fun h => hroom h.2.2)]
      exact ⟨⟨hready, hbound⟩, rfl⟩

/-! ### What is typed and not yet edited -/

/-- The character that the reader has taken out. -/
def Reader.taken : Reader → Str
  | .put _ c => [c]
  | _ => []

/-- The character that the handler is pushing. -/
def Irq.pushing : Irq → Str
  | .idle => []
  | .test c | .store c | .advance c => [c]

def Machine.unread (m : Machine) : Str := m.reader.taken ++ (m.ring.contents ++ m.irq.pushing)

/-- The handler has found room, and after its store the character stands at `g_head`. -/
def Irq.Ok (r : Ring bufSize UInt8) : Irq → Prop
  | .idle | .test _ => True
  | .store _ => Ring.next r.writeIdx ≠ r.readIdx
  | .advance c => Ring.next r.writeIdx ≠ r.readIdx ∧ r.entries r.writeIdx = c

/-- The reader has found a character, and after its load holds the one at `g_tail`. -/
def Reader.Ok (r : Ring bufSize UInt8) : Reader → Prop
  | .idle => True
  | .hasChar max | .put max _ => 256 ≤ max
  | .test max | .load max => 256 ≤ max ∧ r.readIdx ≠ r.writeIdx
  | .advance max c => 256 ≤ max ∧ r.readIdx ≠ r.writeIdx ∧ r.entries r.readIdx = c

theorem Irq.Ok.pop {i : Irq} (h : i.Ok r) (hne : r.readIdx ≠ r.writeIdx) : i.Ok r.pop := by
  have hnext : Ring.next r.writeIdx ≠ Ring.next r.readIdx := fun heq => hne (Ring.next_injective heq).symm
  cases i with
  | idle => trivial
  | test => trivial
  | store => exact hnext
  | advance => exact ⟨hnext, h.2⟩

theorem Reader.Ok.store {i : Reader} (h : i.Ok r) (c : UInt8) : i.Ok (r.store c) := by
  cases i with
  | advance max d =>
    refine ⟨h.1, h.2.1, ?_⟩
    exact (update_of_ne h.2.1 _ _).trans h.2.2
  | _ => exact h

theorem Reader.Ok.advance {i : Reader} (h : i.Ok r) (hroom : Ring.next r.writeIdx ≠ r.readIdx) : i.Ok r.advance := by
  cases i with
  | test max => exact ⟨h.1, hroom.symm⟩
  | load max => exact ⟨h.1, hroom.symm⟩
  | advance max d => exact ⟨h.1, hroom.symm, h.2.2⟩
  | _ => exact h

/-- The lines and the line so far, continued with what is unread, are the reference for all that was typed. -/
structure Inv (m : Machine) : Prop where
  stream : reference (decoded m.scancodes) = m.unread.foldl edit (m.lines, m.terminal.text)
  modifiers : (decodeAll m.scancodes ⟨false, false⟩).2 = m.modifiers
  irq : m.irq.Ok m.ring
  reader : m.reader.Ok m.ring
  terminal : m.terminal.Ok

theorem inv_start : Inv start where
  stream := rfl
  modifiers := rfl
  irq := trivial
  reader := trivial
  terminal := ⟨rfl, by decide⟩

theorem decodeAll_snoc (scs : List UInt8) (sc : UInt8) (d : Modifiers) :
    decodeAll (scs ++ [sc]) d =
      ((decodeAll scs d).1 ++ (decode sc (decodeAll scs d).2).1.toList, (decode sc (decodeAll scs d).2).2) := by
  induction scs generalizing d with
  | nil => simp [decodeAll]
  | cons s scs ih =>
    simp only [List.cons_append, decodeAll, ih, List.append_assoc]

theorem reference_append (cs ds : Str) : reference (cs ++ ds) = ds.foldl edit (reference cs) := List.foldl_append

theorem Inv.interrupt (h : Inv m) (hidle : m.irq = .idle) (sc : UInt8) : Inv (interrupt sc m) := by
  have hsnoc := decodeAll_snoc m.scancodes sc ⟨false, false⟩
  rw [h.modifiers] at hsnoc
  refine ⟨?_, congrArg Prod.snd hsnoc, ?_, h.reader, h.terminal⟩
  · have hdecoded : decoded (m.scancodes ++ [sc]) = decoded m.scancodes ++ (decode sc m.modifiers).1.toList :=
      congrArg Prod.fst hsnoc
    have hunread : (Keyboard.interrupt sc m).unread = m.unread ++ (decode sc m.modifiers).1.toList := by
      unfold Keyboard.interrupt Machine.unread
      rw [hidle]
      cases hc : (decode sc m.modifiers).1 <;> simp [hc, Irq.pushing]
    calc reference (decoded (m.scancodes ++ [sc]))
        = (decode sc m.modifiers).1.toList.foldl edit (reference (decoded m.scancodes)) := by
          rw [hdecoded, reference_append]
      _ = (Keyboard.interrupt sc m).unread.foldl edit (m.lines, m.terminal.text) := by
          rw [h.stream, hunread, List.foldl_append]
  · unfold Keyboard.interrupt
    dsimp only
    split <;> trivial

theorem Inv.bufPush (h : Inv m) (hroom : Roomy m .handler) (hstep : bufPush m = some m') : Inv m' := by
  have hirq := h.irq
  have hstream := h.stream
  unfold Keyboard.bufPush at hstep
  unfold Machine.unread at hstream
  cases hi : m.irq with
  | idle => simp [hi] at hstep
  | test c =>
    have hroom : Ring.next m.ring.writeIdx ≠ m.ring.readIdx := hroom (by rw [hi]; rfl)
    rw [hi] at hstep hstream
    cases hstep
    rw [if_neg hroom]
    exact ⟨hstream, h.modifiers, hroom, h.reader, h.terminal⟩
  | store c =>
    rw [hi] at hstep hirq hstream
    cases hstep
    refine ⟨?_, h.modifiers, ⟨hirq, update_self _ _ _⟩, h.reader.store c, h.terminal⟩
    rw [← Ring.contents_store c] at hstream
    exact hstream
  | advance c =>
    rw [hi] at hstep hirq hstream
    cases hstep
    refine ⟨?_, h.modifiers, trivial, h.reader.advance hirq.1, h.terminal⟩
    have hcontents := Ring.contents_advance hirq.1
    rw [hirq.2] at hcontents
    simp only [Irq.pushing, ← hcontents] at hstream
    rw [hstream]
    simp [Machine.unread, Irq.pushing]

theorem Inv.readStep (h : Inv m) (hstep : readStep m = some m') : Inv m' := by
  have hreader := h.reader
  have hstream := h.stream
  unfold Keyboard.readStep at hstep
  unfold Machine.unread at hstream
  cases hr : m.reader with
  | idle => simp [hr] at hstep
  | hasChar max =>
    rw [hr] at hstep hreader hstream
    cases hstep
    by_cases hne : m.ring.writeIdx ≠ m.ring.readIdx
    · rw [if_pos hne]
      exact ⟨hstream, h.modifiers, h.irq, ⟨hreader, hne.symm⟩, h.terminal⟩
    · rw [if_neg hne]
      exact ⟨hstream, h.modifiers, h.irq, trivial, h.terminal⟩
  | test max =>
    rw [hr] at hstep hreader hstream
    cases hstep
    rw [if_neg hreader.2.symm]
    exact ⟨hstream, h.modifiers, h.irq, hreader, h.terminal⟩
  | load max =>
    rw [hr] at hstep hreader hstream
    cases hstep
    exact ⟨hstream, h.modifiers, h.irq, ⟨hreader.1, hreader.2, rfl⟩, h.terminal⟩
  | advance max c =>
    rw [hr] at hstep hreader hstream
    cases hstep
    refine ⟨?_, h.modifiers, h.irq.pop hreader.2.1, hreader.1, h.terminal⟩
    rw [Ring.contents_pop hreader.2.1, hreader.2.2] at hstream
    exact hstream
  | put max c =>
    rw [hr] at hstep hreader hstream
    have hmax : 256 ≤ max := hreader
    change (if (putChar c m.terminal).lineReady = true then _ else _) = some m' at hstep
    rcases putChar_edit h.terminal m.lines c with ⟨hready, hpos, htext, hedit⟩ | ⟨hok, hedit⟩
    · rw [if_pos hready] at hstep
      cases hstep
      -- a line of at most 255 characters is copied whole
      have hcopied : (putChar c m.terminal).copied max = m.terminal.text := by
        have := h.terminal.bound
        unfold Terminal.copied
        rw [if_pos (by omega)]
        exact htext
      refine ⟨?_, h.modifiers, h.irq, trivial, ⟨rfl, Nat.zero_le _⟩⟩
      rw [hstream, hcopied]
      exact congrArg (fun x => List.foldl edit x _) hedit
    · rw [if_neg (by simp [hok.ready])] at hstep
      cases hstep
      refine ⟨?_, h.modifiers, h.irq, hmax, hok⟩
      rw [hstream]
      exact congrArg (fun x => List.foldl edit x _) hedit

theorem Inv.step {a : Act} (h : Inv m) (hok : Roomy m a) (hstep : step a m = some m') : Inv m' := by
  cases a with
  | interrupt sc =>
    rw [Keyboard.step] at hstep
    split_ifs at hstep with hidle
    cases hstep
    exact h.interrupt hidle sc
  | handler => exact h.bufPush hok hstep
  | readLine max =>
    rw [Keyboard.step] at hstep
    split_ifs at hstep with hidle
    cases hstep
    have hstream := h.stream
    unfold Machine.unread at hstream
    rw [hidle] at hstream
    exact ⟨hstream, h.modifiers, h.irq, hok, h.terminal⟩
  | reader => exact h.readStep hstep

theorem edit_lines (cs : Str) (x : List Str × Str) : x.1 <+: (cs.foldl edit x).1 := by
  induction cs generalizing x with
  | nil => exact List.prefix_rfl
  | cons c cs ih =>
    refine List.IsPrefix.trans ?_ (ih (edit x c))
    unfold edit
    split_ifs
    · exact List.prefix_append _ _
    all_goals exact List.prefix_rfl

/-- However interrupts and reads interleave, the lines returned are those of the characters typed: they come first
among the lines of the reference, what is unread accounts for the rest, and they are all of them once nothing is
unread. -/
theorem lines_eq_reference (h : Run Roomy m) :
    reference (decoded m.scancodes) = m.unread.foldl edit (m.lines, m.terminal.text) ∧
    m.lines <+: (reference (decoded m.scancodes)).1 ∧
    (m.unread = [] → (m.lines, m.terminal.text) = reference (decoded m.scancodes)) := by
  have hinv : Inv m := by
    induction h with
    | start => exact inv_start
    | step _ hok hstep ih => exact ih.step hok hstep
  refine ⟨hinv.stream, ?_, fun hnil => ?_⟩
  · rw [hinv.stream]
    exact edit_lines m.unread (m.lines, m.terminal.text)
  · rw [hinv.stream, hnil]
    rfl

/-! ### A line typed while it is read -/

instance (m : Machine) : ∀ a, Decidable (Roomy m a)
  | .handler => inferInstanceAs (Decidable (_ → _))
  | .readLine max => inferInstanceAs (Decidable (256 ≤ max))
  | .interrupt _ => isTrue trivial
  | .reader => isTrue trivial

def perform : List Act → Machine → Option Machine
  | [], m => some m
  | a :: acts, m => if Roomy m a then (step a m).bind (perform acts) else none

theorem run_perform {acts : List Act} (hrun : Run Roomy m) (h : perform acts m = some m') : Run Roomy m' := by
  induction acts generalizing m with
  | nil =>
    cases h
    exact hrun
  | cons a acts ih =>
    rw [perform] at h
    split_ifs at h with hok
    obtain ⟨m₁, hstep, hrest⟩ := Option.bind_eq_some_iff.mp h
    exact ih (.step hrun hok hstep) hrest

/-- `a` is typed, `read_line` takes it out, and the newline arrives before it is edited. -/
def typing : List Act :=
  [.interrupt 0x1E, .handler, .handler, .handler, .readLine 256, .reader, .reader, .reader, .reader,
   .interrupt 0x1C, .handler, .handler, .reader, .handler, .reader, .reader, .reader, .reader, .reader]

theorem typed_line_returned : ∃ m, perform typing start = some m ∧ m.scancodes = [0x1E, 0x1C] ∧ m.lines = [[97]] ∧
    (m.lines, m.terminal.text) = reference (decoded m.scancodes) := by
  obtain ⟨m, hm⟩ := Option.isSome_iff_exists.mp (show (perform typing start).isSome = true by decide +kernel)
  have hfacts : (perform typing start).map (fun m => (m.scancodes, m.lines, m.unread)) =
      some ([0x1E, 0x1C], [[97]], []) := by decide +kernel
  rw [hm] at hfacts
  obtain ⟨hsc, hlines, hunread⟩ : m.scancodes = [0x1E, 0x1C] ∧ m.lines = [[97]] ∧ m.unread = [] := by
    simpa using hfacts
  exact ⟨m, hm, hsc, hlines, (lines_eq_reference (run_perform .start hm)).2.2 hunread⟩

end Tori.Keyboard
