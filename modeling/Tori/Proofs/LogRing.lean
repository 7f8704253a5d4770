import Tori.Spec.Log

/-! One CPU after `init_per_cpu`: entries are printed in the order they were pushed, and none is dropped. The inline
flush takes four entries from a ring that holds more than 192, before one is added. -/

namespace Tori.Log

variable {E : Type} {s : State E} {lapicId limit : ℕ}

/-- What a call did: the entries it printed are the oldest that were pending, and it added `new`. -/
structure Moved (lapicId : ℕ) (s : State E) (new : List E) (x : List E × State E) : Prop where
  order : x.1 ++ x.2.pending lapicId = s.pending lapicId ++ new
  uses : x.2.usesPerCpu lapicId = true

theorem drainBoot_spec (s : State E) :
    (drainBoot s).1 = s.bootBuffer.contents ∧ (drainBoot s).2.bootBuffer.contents = [] := by
  exact Ring.drain_all s.bootBuffer

@[simp] theorem setRing_ring (s : State E) (r : Ring ringEntries E) : (s.setRing lapicId r).perCpuBuffers lapicId = r :=
  Function.update_self _ _ _

/-- A flush of a CPU with a ring, written out. -/
theorem flushUpTo_eq (h : s.usesPerCpu lapicId = true) : flushUpTo limit lapicId true s =
    (s.bootBuffer.contents ++ (Ring.drain limit (s.perCpuBuffers lapicId)).1,
      (drainBoot s).2.setRing lapicId (Ring.drain limit (s.perCpuBuffers lapicId)).2) := by
  unfold flushUpTo
  simp only [Bool.not_true, Bool.false_eq_true, if_false, (drainBoot_spec s).1]
  rw [show (drainBoot s).2.usesPerCpu lapicId = true from h, if_pos rfl]
  rfl

theorem flushUpTo_moved (h : s.usesPerCpu lapicId = true) : Moved lapicId s [] (flushUpTo limit lapicId true s) := by
  rw [flushUpTo_eq h]
  refine ⟨?_, h⟩
  have hboot : ((drainBoot s).2.setRing lapicId (Ring.drain limit (s.perCpuBuffers lapicId)).2).bootBuffer.contents = [] :=
    (drainBoot_spec s).2
  have hdrain := Ring.drain_contents limit (s.perCpuBuffers lapicId)
  simp only [State.pending, hboot, setRing_ring, List.nil_append, List.append_nil, List.append_assoc, hdrain]

theorem flushUpTo_used (h : s.usesPerCpu lapicId = true) :
    ((flushUpTo limit lapicId true s).2.perCpuBuffers lapicId).used + min limit (s.perCpuBuffers lapicId).used =
      (s.perCpuBuffers lapicId).used := by
  have hlen := congrArg List.length (Ring.drain_contents limit (s.perCpuBuffers lapicId))
  rw [List.length_append, Ring.drain_length, Ring.length_contents, Ring.length_contents] at hlen
  rw [flushUpTo_eq h, setRing_ring]
  omega

theorem flushUpTo_writeIdx (limit lapicId : ℕ) (free : Bool) (s : State E) :
    ((flushUpTo limit lapicId free s).2.perCpuBuffers lapicId).writeIdx = (s.perCpuBuffers lapicId).writeIdx := by
  unfold flushUpTo
  split_ifs
  · rfl
  · dsimp only
    split_ifs
    · rw [setRing_ring, Ring.drain_writeIdx]
      rfl
    · rfl

/-- The inline flush of `push_entry`. -/
def makeRoom (lapicId : ℕ) (free : Bool) (s : State E) : List E × State E :=
  if (s.perCpuBuffers lapicId).used > ringEntries * 3 / 4 then flush lapicId free s else ([], s)

theorem makeRoom_writeIdx (lapicId : ℕ) (free : Bool) (s : State E) :
    ((makeRoom lapicId free s).2.perCpuBuffers lapicId).writeIdx = (s.perCpuBuffers lapicId).writeIdx := by
  unfold makeRoom
  split_ifs
  · exact flushUpTo_writeIdx _ _ _ _
  · rfl

/-- The index to write is the same after the flush, so the entry goes where the next one belongs. -/
theorem pushEntry_ring (h : s.usesPerCpu lapicId = true) (free : Bool) (entry : E) :
    pushEntry lapicId free entry s =
      let x := makeRoom lapicId free s
      let buf := x.2.perCpuBuffers lapicId
      (x.1, if Ring.next buf.writeIdx ≠ buf.readIdx then x.2.setRing lapicId (buf.push entry) else x.2) := by
  unfold pushEntry
  rw [if_pos h]
  simp only [← Ring.used_eq]
  have hroom : (if (s.perCpuBuffers lapicId).used > ringEntries * 3 / 4 then flush lapicId free s else ([], s)) =
    makeRoom lapicId free s := rfl
  rw [hroom, ← makeRoom_writeIdx lapicId free s]
  split_ifs <;> rfl

theorem pushEntry_boot (h : ¬s.usesPerCpu lapicId = true) (free : Bool) (entry : E) :
    pushEntry lapicId free entry s = ([], if Ring.next s.bootBuffer.writeIdx ≠ s.bootBuffer.readIdx then
      { s with bootBuffer := s.bootBuffer.push entry } else s) := by
  unfold pushEntry
  rw [if_neg h]
  dsimp only
  split_ifs <;> rfl

section

variable (h : s.usesPerCpu lapicId = true)
include h

/-- Backpressure makes room: after it the ring holds at most 251 of its 255 entries, and at most 192 unless it held
more than 193 before. -/
theorem makeRoom_spec : Moved lapicId s [] (makeRoom lapicId true s) ∧
      ((makeRoom lapicId true s).2.perCpuBuffers lapicId).used < ringEntries - 1 ∧
      ((makeRoom lapicId true s).2.perCpuBuffers lapicId).used + 1 ≤ max 193 (s.perCpuBuffers lapicId).used := by
  have hlt := (s.perCpuBuffers lapicId).used_lt
  have hring : ringEntries = 256 := rfl
  have hbatch : flushBatch = 4 := rfl
  unfold makeRoom
  split_ifs with hused
  · have hafter := @flushUpTo_used _ _ _ flushBatch h
    refine ⟨flushUpTo_moved h, ?_, ?_⟩ <;> unfold flush <;> omega
  · refine ⟨⟨by simp, h⟩, ?_, ?_⟩ <;> dsimp only <;> omega

theorem pushEntry_spec (entry : E) : Moved lapicId s [entry] (pushEntry lapicId true entry s) ∧
      ((pushEntry lapicId true entry s).2.perCpuBuffers lapicId).used ≤ max 193 (s.perCpuBuffers lapicId).used := by
  obtain ⟨hmoved, hroom, hbound⟩ := makeRoom_spec h
  rw [pushEntry_ring h]
  generalize makeRoom lapicId true s = x at *
  dsimp only
  have hnext : Ring.next (x.2.perCpuBuffers lapicId).writeIdx ≠ (x.2.perCpuBuffers lapicId).readIdx := fun hfull => by
    have := Ring.full_iff.mp hfull
    omega
  rw [if_pos hnext, setRing_ring, Ring.used_push entry hnext]
  refine ⟨⟨?_, hmoved.uses⟩, hbound⟩
  have horder := hmoved.order
  rw [List.append_nil] at horder
  rw [← horder]
  simp only [State.pending, setRing_ring, Ring.contents_push entry hnext, List.append_assoc]
  rfl

theorem call_spec (c : Call E) : Moved lapicId s (pushed [c]) (call lapicId c s) ∧
      ((call lapicId c s).2.perCpuBuffers lapicId).used ≤ max 193 (s.perCpuBuffers lapicId).used := by
  cases c with
  | push entry => exact pushEntry_spec h entry
  | flush =>
    have := @flushUpTo_used _ _ _ flushBatch h
    rw [show call lapicId .flush s = flushUpTo flushBatch lapicId true s from rfl]
    exact ⟨flushUpTo_moved h, le_max_of_le_right (by omega)⟩
  | flushAll =>
    have := @flushUpTo_used _ _ _ ringEntries h
    rw [show call lapicId .flushAll s = flushUpTo ringEntries lapicId true s from rfl]
    exact ⟨flushUpTo_moved h, le_max_of_le_right (by omega)⟩

theorem calls_spec (cs : List (Call E)) :
    (calls lapicId cs s).1 ++ (calls lapicId cs s).2.pending lapicId = s.pending lapicId ++ pushed cs ∧
      ((calls lapicId cs s).2.perCpuBuffers lapicId).used ≤ max 193 (s.perCpuBuffers lapicId).used := by
  induction cs generalizing s with
  | nil => exact ⟨by simp [calls, pushed], le_max_right _ _⟩
  | cons c cs ih =>
    obtain ⟨hmoved, hused⟩ := call_spec h c
    obtain ⟨horder, hused'⟩ := ih hmoved.uses
    constructor
    · have hpushed : pushed (c :: cs) = pushed [c] ++ pushed cs := by cases c <;> rfl
      rw [hpushed, ← List.append_assoc, ← hmoved.order, List.append_assoc, ← horder]
      exact List.append_assoc _ _ _
    · exact hused'.trans (max_le (le_max_left _ _) hused)

end

theorem initPerCpu_spec (s : State E) (h : lapicId < maxCpus) :
    (initPerCpu lapicId s).1 = s.bootBuffer.contents ∧ (initPerCpu lapicId s).2.usesPerCpu lapicId = true ∧
      (initPerCpu lapicId s).2.pending lapicId = (s.perCpuBuffers lapicId).contents ∧
      (initPerCpu lapicId s).2.perCpuBuffers = s.perCpuBuffers := by
  unfold initPerCpu
  rw [if_neg (Nat.not_le.mpr h)]
  refine ⟨(drainBoot_spec s).1, by simp [State.usesPerCpu, h], ?_, rfl⟩
  simp only [State.pending, (drainBoot_spec s).2, List.nil_append]
  rfl

/-- After `init_per_cpu` every entry is printed once and in order, those of the boot buffer first, and the rest is
pending; a ring that was empty never holds more than 193 entries. -/
theorem log_complete_in_order (s₀ : State E) (lapicId : Fin maxCpus) (cs : List (Call E)) :
    let s₁ := (initPerCpu lapicId s₀).2
    (initPerCpu lapicId s₀).1 ++ ((calls lapicId cs s₁).1 ++ (calls lapicId cs s₁).2.pending lapicId) =
      s₀.pending lapicId ++ pushed cs ∧
    ((calls lapicId cs s₁).2.perCpuBuffers lapicId).used ≤ max 193 (s₀.perCpuBuffers lapicId).used := by
  obtain ⟨hout, huses, hpending, hrings⟩ := initPerCpu_spec s₀ lapicId.isLt
  obtain ⟨horder, hused⟩ := calls_spec huses cs
  constructor
  · rw [horder, hout, hpending, ← List.append_assoc]
    rfl
  · rwa [hrings] at hused

end Tori.Log
