import Tori.Proofs.LogRing

/-! What a deferred text shows. `write_text_value` stores the pointer, and `format_entry` follows it at the flush: the
text is the one of the call as long as no store changes a string that a pending entry points to. -/

namespace Tori.Log

open Function
open Vfs (Str)

variable {E F : Type} {s : State E}

/-! ### Where entries come from -/

/-- In the boot buffer or in some ring. -/
def State.Pending (s : State E) (e : E) : Prop :=
  e ∈ s.bootBuffer.contents ∨ ∃ lapicId, e ∈ (s.perCpuBuffers lapicId).contents

/-- A call prints pending entries only, and adds at most those of `new`. -/
structure Moves (s : State E) (new : List E) (x : List E × State E) : Prop where
  printed : ∀ e ∈ x.1, s.Pending e
  pending : ∀ e, x.2.Pending e → s.Pending e ∨ e ∈ new

theorem Moves.refl (s : State E) (new : List E) : Moves s new ([], s) := ⟨by simp, fun _ h => .inl h⟩

theorem pending_setRing {lapicId : ℕ} {r : Ring ringEntries E} {e : E} (h : (s.setRing lapicId r).Pending e) :
    s.Pending e ∨ e ∈ r.contents := by
  rcases h with h | ⟨id, h⟩
  · exact .inl (.inl h)
  · by_cases hid : id = lapicId
    · subst hid
      rw [setRing_ring] at h
      exact .inr h
    · have hsame : (s.setRing lapicId r).perCpuBuffers id = s.perCpuBuffers id := update_of_ne hid _ _
      rw [hsame] at h
      exact .inl (.inr ⟨id, h⟩)

theorem drainBoot_moves (s : State E) (new : List E) : Moves s new (drainBoot s) := by
  obtain ⟨hout, hempty⟩ := drainBoot_spec s
  refine ⟨fun e he => .inl (hout ▸ he), fun e he => ?_⟩
  rcases he with he | he
  · rw [hempty] at he
    cases he
  · exact .inl (.inr he)

theorem mem_drain {k : ℕ} {r : Ring ringEntries E} {e : E} (h : e ∈ (Ring.drain k r).1 ∨ e ∈ (Ring.drain k r).2.contents) :
    e ∈ r.contents := by
  rw [← Ring.drain_contents k r]
  exact List.mem_append.mpr h

theorem mem_push {N : ℕ} [NeZero N] {r : Ring N E} {e e' : E} (h : Ring.next r.writeIdx ≠ r.readIdx)
    (he : e' ∈ (r.push e).contents) : e' ∈ r.contents ∨ e' ∈ [e] := by
  rw [Ring.contents_push e h] at he
  exact List.mem_append.mp he

theorem flushUpTo_moves (limit lapicId : ℕ) (free : Bool) (s : State E) (new : List E) :
    Moves s new (flushUpTo limit lapicId free s) := by
  have hboot := drainBoot_moves s new
  unfold flushUpTo
  split_ifs
  · exact .refl s new
  · dsimp only
    split_ifs
    · refine ⟨fun e he => ?_, fun e he => ?_⟩
      · rcases List.mem_append.mp he with he | he
        · exact hboot.printed e he
        · exact .inr ⟨lapicId, mem_drain (.inl he)⟩
      · rcases pending_setRing he with he | he
        · exact hboot.pending e he
        · exact .inl (.inr ⟨lapicId, mem_drain (.inr he)⟩)
    · exact hboot

theorem makeRoom_moves (lapicId : ℕ) (free : Bool) (s : State E) (new : List E) :
    Moves s new (makeRoom lapicId free s) := by
  unfold makeRoom
  split_ifs
  · exact flushUpTo_moves _ _ _ _ _
  · exact .refl s new

/-- With or without the lock; a push that finds no room drops the entry. -/
theorem pushEntry_moves (lapicId : ℕ) (free : Bool) (entry : E) (s : State E) :
    Moves s [entry] (pushEntry lapicId free entry s) := by
  by_cases huses : s.usesPerCpu lapicId = true
  · have hmoves := makeRoom_moves lapicId free s [entry]
    rw [pushEntry_ring huses]
    generalize makeRoom lapicId free s = x at *
    refine ⟨hmoves.printed, fun e he => ?_⟩
    dsimp only at he
    split_ifs at he with hnext
    · rcases pending_setRing he with he | he
      · exact hmoves.pending e he
      · rcases mem_push hnext he with he | he
        · exact hmoves.pending e (.inr ⟨lapicId, he⟩)
        · exact .inr he
    · exact hmoves.pending e he
  · rw [pushEntry_boot huses]
    refine ⟨by simp, fun e he => ?_⟩
    split_ifs at he with hnext
    · rcases he with he | he
      · exact (mem_push hnext he).imp .inl id
      · exact .inl (.inr he)
    · exact .inl he

theorem initPerCpu_moves (lapicId : ℕ) (s : State E) (new : List E) : Moves s new (initPerCpu lapicId s) := by
  have hboot := drainBoot_moves s new
  unfold initPerCpu
  split_ifs
  · exact .refl s new
  · exact ⟨hboot.printed, hboot.pending⟩

/-! ### Entries are not looked at -/

def State.map (f : E → F) (s : State E) : State F :=
  ⟨s.bootBuffer.map f, fun lapicId => (s.perCpuBuffers lapicId).map f, s.cpuInitialized, s.anyCpuInitialized⟩

/-- The result of a call with every entry replaced. -/
def mapped (f : E → F) (x : List E × State E) : List F × State F := (x.1.map f, x.2.map f)

variable (f : E → F)

theorem setRing_map (s : State E) (lapicId : ℕ) (r : Ring ringEntries E) :
    (s.setRing lapicId r).map f = (s.map f).setRing lapicId (r.map f) := by
  simp only [State.map, State.setRing, State.mk.injEq, true_and, and_true]
  funext id
  by_cases hid : id = lapicId
  · subst hid
    rw [update_self, update_self]
  · rw [update_of_ne hid, update_of_ne hid]

theorem push_map {N : ℕ} [NeZero N] (r : Ring N E) (e : E) : (r.push e).map f = (r.map f).push (f e) := by
  simp only [Ring.map, Ring.push, Ring.store, Ring.advance, Ring.mk.injEq, and_self, and_true]
  funext i
  by_cases hi : i = r.writeIdx
  · subst hi
    rw [update_self, update_self]
  · rw [update_of_ne hi, update_of_ne hi]

theorem drainBoot_map (s : State E) : drainBoot (s.map f) = mapped f (drainBoot s) := by
  unfold drainBoot mapped
  rw [show (s.map f).bootBuffer = s.bootBuffer.map f from rfl, Ring.drain_map]
  rfl

theorem flushUpTo_map (limit lapicId : ℕ) (free : Bool) (s : State E) :
    flushUpTo limit lapicId free (s.map f) = mapped f (flushUpTo limit lapicId free s) := by
  unfold flushUpTo
  rw [drainBoot_map]
  split_ifs with hfree
  · rfl
  · dsimp only [mapped]
    rw [show ((drainBoot s).2.map f).usesPerCpu lapicId = (drainBoot s).2.usesPerCpu lapicId from rfl,
      show ((drainBoot s).2.map f).perCpuBuffers lapicId = ((drainBoot s).2.perCpuBuffers lapicId).map f from rfl,
      Ring.drain_map]
    split_ifs
    · rw [setRing_map, List.map_append]
    · rfl

theorem makeRoom_map (lapicId : ℕ) (free : Bool) (s : State E) :
    makeRoom lapicId free (s.map f) = mapped f (makeRoom lapicId free s) := by
  unfold makeRoom
  rw [apply_ite (mapped f), show mapped f (flush lapicId free s) = flush lapicId free (s.map f) from
    (flushUpTo_map f _ _ _ _).symm]
  rfl

theorem pushEntry_map (lapicId : ℕ) (free : Bool) (entry : E) (s : State E) :
    pushEntry lapicId free (f entry) (s.map f) = mapped f (pushEntry lapicId free entry s) := by
  have huses' : (s.map f).usesPerCpu lapicId = s.usesPerCpu lapicId := rfl
  by_cases huses : s.usesPerCpu lapicId = true
  · rw [pushEntry_ring huses, pushEntry_ring (huses'.trans huses), makeRoom_map]
    generalize makeRoom lapicId free s = x
    dsimp only [mapped]
    rw [show (x.2.map f).perCpuBuffers lapicId = (x.2.perCpuBuffers lapicId).map f from rfl, ← push_map, ← setRing_map,
      apply_ite (State.map f)]
    rfl
  · rw [pushEntry_boot huses, pushEntry_boot (by rwa [huses']),
      show (s.map f).bootBuffer = s.bootBuffer.map f from rfl, ← push_map]
    dsimp only [mapped]
    rw [apply_ite (State.map f)]
    rfl

theorem initPerCpu_map (lapicId : ℕ) (s : State E) :
    initPerCpu lapicId (s.map f) = mapped f (initPerCpu lapicId s) := by
  unfold initPerCpu
  rw [drainBoot_map]
  split_ifs <;> rfl

/-! ### Programs that log -/

/-- A memory and a log. Every entry carries, beside it, the text its value pointer stood for at the call; no function
looks at it. `printed` has the entry, that text, and the text it was printed with. -/
structure Program where
  mem : ℕ → UInt8
  log : State (LogEntry × Option Str)
  printed : List (LogEntry × Option Str × Option Str)

/-- What a program does, on any CPU: any store, and the calls of the log. -/
inductive Event
  | store (x : ℕ) (b : UInt8)
  | log (lapicId : ℕ) (free : Bool) (entry : LogEntry)
  | flush (lapicId : ℕ) (free : Bool)
  | flushAll (lapicId : ℕ) (free : Bool)
  | initPerCpu (lapicId : ℕ)

/-- Entries handed to `format_entry` are printed from memory as it is now. -/
def Program.print (p : Program) (x : List (LogEntry × Option Str) × State (LogEntry × Option Str)) : Program :=
  { p with log := x.2, printed := p.printed ++ x.1.map fun e => (e.1, e.2, valueText p.mem e.1) }

def Program.step (p : Program) : Event → Program
  | .store x b => { p with mem := update p.mem x b }
  | .log lapicId free entry => p.print (pushEntry lapicId free (entry, valueText p.mem entry) p.log)
  | .flush lapicId free => p.print (Log.flush lapicId free p.log)
  | .flushAll lapicId free => p.print (Log.flushAll lapicId free p.log)
  | .initPerCpu lapicId => p.print (Log.initPerCpu lapicId p.log)

/-- What the log itself does. -/
def Event.act : Event → State LogEntry → List LogEntry × State LogEntry
  | .store _ _, s => ([], s)
  | .log lapicId free entry, s => pushEntry lapicId free entry s
  | .flush lapicId free, s => Log.flush lapicId free s
  | .flushAll lapicId free, s => Log.flushAll lapicId free s
  | .initPerCpu lapicId, s => Log.initPerCpu lapicId s

/-- Without the texts of the calls a program is the log, and prints what the log hands to `format_entry`. -/
theorem step_act (p : Program) (ev : Event) :
    (p.step ev).log.map Prod.fst = (ev.act (p.log.map Prod.fst)).2 ∧
      (p.step ev).printed.map Prod.fst = p.printed.map Prod.fst ++ (ev.act (p.log.map Prod.fst)).1 := by
  have hprint : ∀ x : List (LogEntry × Option Str) × State (LogEntry × Option Str), (p.print x).printed.map Prod.fst =
      p.printed.map Prod.fst ++ (mapped Prod.fst x).1 := by
    intro x
    simp [Program.print, mapped]
  cases ev with
  | store x b => exact ⟨rfl, (List.append_nil _).symm⟩
  | log lapicId free entry =>
    have h := pushEntry_map Prod.fst lapicId free (entry, valueText p.mem entry) p.log
    exact ⟨congrArg Prod.snd h.symm, (hprint _).trans (congrArg (_ ++ ·.1) h.symm)⟩
  | flush lapicId free =>
    have h := flushUpTo_map Prod.fst flushBatch lapicId free p.log
    exact ⟨congrArg Prod.snd h.symm, (hprint _).trans (congrArg (_ ++ ·.1) h.symm)⟩
  | flushAll lapicId free =>
    have h := flushUpTo_map Prod.fst ringEntries lapicId free p.log
    exact ⟨congrArg Prod.snd h.symm, (hprint _).trans (congrArg (_ ++ ·.1) h.symm)⟩
  | initPerCpu lapicId =>
    have h := initPerCpu_map Prod.fst lapicId p.log
    exact ⟨congrArg Prod.snd h.symm, (hprint _).trans (congrArg (_ ++ ·.1) h.symm)⟩

def Program.run (evs : List Event) (p : Program) : Program := evs.foldl Program.step p

def Program.start (mem : ℕ → UInt8) : Program := ⟨mem, .zero, []⟩

/-- A store leaves every string that a pending entry points to. -/
def KeepsTexts (p : Program) : Event → Prop
  | .store x b => ∀ e, p.log.Pending e → valueText (update p.mem x b) e.1 = valueText p.mem e.1
  | _ => True

inductive ProgramRun (ok : Program → Event → Prop) (p₀ : Program) : Program → Prop
  | start : ProgramRun ok p₀ p₀
  | step {p : Program} (ev : Event) (hrun : ProgramRun ok p₀ p) (hok : ok p ev) : ProgramRun ok p₀ (p.step ev)

/-- Pending entries still point to the text of their call, and those that were printed showed it. -/
structure Faithful (p : Program) : Prop where
  pending : ∀ e, p.log.Pending e → valueText p.mem e.1 = e.2
  printed : ∀ x ∈ p.printed, x.2.2 = x.2.1

theorem zero_not_pending [Inhabited E] (e : E) : ¬(State.zero : State E).Pending e := by
  rintro (he | ⟨id, he⟩) <;> rw [Ring.contents_empty rfl] at he <;> cases he

theorem faithful_start (mem : ℕ → UInt8) : Faithful (.start mem) :=
  ⟨fun e he => absurd he (zero_not_pending e), fun _ hx => nomatch hx⟩

theorem Faithful.print {p : Program} (h : Faithful p) {new : List (LogEntry × Option Str)}
    {x : List (LogEntry × Option Str) × State (LogEntry × Option Str)} (hx : Moves p.log new x)
    (hnew : ∀ e ∈ new, valueText p.mem e.1 = e.2) : Faithful (p.print x) := by
  refine ⟨fun e he => ?_, fun y hy => ?_⟩
  · rcases hx.pending e he with he | he
    · exact h.pending e he
    · exact hnew e he
  · rcases List.mem_append.mp hy with hy | hy
    · exact h.printed y hy
    · obtain ⟨e, he, rfl⟩ := List.mem_map.mp hy
      exact h.pending e (hx.printed e he)

theorem Faithful.step {p : Program} (h : Faithful p) {ev : Event} (hok : KeepsTexts p ev) : Faithful (p.step ev) := by
  cases ev with
  | store x b => exact ⟨fun e he => (hok e he).trans (h.pending e he), h.printed⟩
  | log lapicId free entry => exact h.print (pushEntry_moves lapicId free _ p.log) (by simp)
  | flush lapicId free => exact h.print (flushUpTo_moves flushBatch lapicId free p.log []) (by simp)
  | flushAll lapicId free => exact h.print (flushUpTo_moves ringEntries lapicId free p.log []) (by simp)
  | initPerCpu lapicId => exact h.print (initPerCpu_moves lapicId p.log []) (by simp)

/-- In every run whose stores keep the texts of the pending entries, every entry is printed with the text of its
call. -/
theorem deferred_text_faithful (mem : ℕ → UInt8) {p : Program} (h : ProgramRun KeepsTexts (.start mem) p) :
    ∀ x ∈ p.printed, x.2.2 = x.2.1 := by
  have hall : Faithful p := by
    induction h with
    | start => exact faithful_start mem
    | step ev _ hok ih => exact ih.step hok
  exact hall.printed

/-! ### Two spawns -/

/-- `path` of `process_spawn`, in the buffer of `sys_spawn` at 0x1000. -/
def pathEntry : LogEntry := textValueEntry 0 .info 0 0 122 0 0x1000

/-- `sys_spawn` of a path of one letter, as far as the log goes: the buffer is filled and the pointer logged. -/
def spawn (letter : UInt8) : List Event := [.store 0x1000 letter, .store 0x1001 0, .log 0 true pathEntry]

/-- The first spawn is printed before the second one uses the stack again. -/
theorem flushed_spawn_faithful :
    let p := Program.run (spawn 97 ++ [.flushAll 0 true]) (.start fun _ => 0)
    p.printed = [(pathEntry, some [97], some [97])] ∧ ∀ x ∈ p.printed, x.2.2 = x.2.1 := by
  refine ⟨by decide +kernel, deferred_text_faithful (fun _ => 0) ?_⟩
  refine .step (.flushAll 0 true) (.step (.log 0 true pathEntry) (.step (.store 0x1001 0) (.step (.store 0x1000 97)
    .start ?_) ?_) trivial) trivial
  · exact fun e he => absurd he (zero_not_pending e)
  · exact fun e he => absurd he (zero_not_pending e)

/-- Two spawns before the flush: both lines show the path of the second. -/
theorem spawned_path_overwritten :
    (Program.run (spawn 97 ++ spawn 98 ++ [.flushAll 0 true]) (.start fun _ => 0)).printed =
      [(pathEntry, some [97], some [98]), (pathEntry, some [98], some [98])] := by
  decide +kernel

end Tori.Log
