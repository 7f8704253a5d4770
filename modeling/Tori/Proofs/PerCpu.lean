import Mathlib.Data.List.Perm.Subperm
import Mathlib.Tactic
import Tori.Spec.PerCpu

/-! The block that `set_current_task` writes is the one of the CPU exactly if the CPU's LAPIC id is its index. -/

namespace Tori.PerCpu

open Function

variable {bootStack : ℕ → ℕ} {ids : List ℕ} {s : State} {i j l n : ℕ}

theorem setUp_spec (hn : n ≤ maxCpus) : (∀ i < maxCpus, (setUp bootStack n).percpu i = ⟨bootStack i, bootStack i⟩) ∧
    (∀ l, (setUp bootStack n).currentTasks l = none) ∧ ∀ i < n, (setUp bootStack n).gsBase i = i := by
  induction n with
  | zero => exact ⟨fun i hi => if_pos hi, fun _ => rfl, fun i hi => absurd hi (Nat.not_lt_zero i)⟩
  | succ n ih =>
    obtain ⟨hblock, htask, hbase⟩ := ih (by omega)
    have hset : setUp bootStack (n + 1) = { setUp bootStack n with gsBase := update (setUp bootStack n).gsBase n n } :=
      if_neg (by omega)
    rw [hset]
    refine ⟨hblock, htask, fun i hi => ?_⟩
    rcases Nat.lt_succ_iff_lt_or_eq.mp hi with hlt | rfl
    · exact (update_of_ne hlt.ne _ _).trans (hbase i hlt)
    · exact update_self _ _ _

theorem setCurrentTask_spec (hl : l < maxCpus) (task : Option Task) (s : State) :
    setCurrentTask bootStack l task s = { s with
      percpu := update s.percpu l (if stackTop task = 0 then ⟨bootStack l, bootStack l⟩ else ⟨stackTop task, stackTop task⟩)
      currentTasks := update s.currentTasks l task } := by
  rw [setCurrentTask, if_pos hl, setKernelEntryStack, if_neg (by omega)]
  split_ifs <;> rfl

/-- The ids are the indices: every call keeps its CPU's block up to date, and touches no other. -/
theorem Reached.follows (h : Reached bootStack ids s) (hlt : ∀ l ∈ ids, l < maxCpus)
    (hids : ∀ i l : ℕ, ids[i]? = some l → l = i) :
    (∀ i < ids.length, s.gsBase i = i) ∧ ∀ i < ids.length, Follows bootStack i i s := by
  have hself : ∀ i < ids.length, i < maxCpus := fun i hi => by
    have hmem := List.getElem_mem hi
    rw [hids i ids[i] (List.getElem?_eq_getElem hi)] at hmem
    exact hlt i hmem
  have hlen : ids.length ≤ maxCpus := by
    by_contra hlong
    exact absurd (hself maxCpus (by omega)) (lt_irrefl _)
  induction h with
  | start =>
    obtain ⟨hblock, htask, hbase⟩ := @setUp_spec bootStack _ hlen
    refine ⟨hbase, fun i hi => ?_⟩
    rw [Follows, hbase i hi, hblock i (hself i hi), htask]
    rfl
  | @call s i l h hcpu task ih =>
    obtain ⟨hbase, hfollows⟩ := ih
    have hl := hlt l (List.mem_of_getElem? hcpu)
    rw [setCurrentTask_spec hl]
    refine ⟨hbase, fun j hj => ?_⟩
    have hold := hfollows j hj
    unfold Follows at hold ⊢
    rw [hbase j hj] at hold ⊢
    by_cases hjl : j = l
    · simp only [hjl, update_self]
      split_ifs <;> rfl
    · simp only [update_of_ne hjl]
      exact hold

/-- Every CPU enters the kernel on the stack of its current task, and calls on it leave the blocks of the others alone,
exactly if the LAPIC ids are the indices in the CPU list. -/
theorem entry_stack_follows_iff (hnodup : ids.Nodup) (hlt : ∀ l ∈ ids, l < maxCpus) :
    (∀ s, Reached bootStack ids s → ∀ i l : ℕ, ids[i]? = some l → Follows bootStack i l s ∧
      ∀ task j, j < ids.length → j ≠ i →
        (setCurrentTask bootStack l task s).percpu (s.gsBase j) = s.percpu (s.gsBase j)) ↔
    ∀ i l : ℕ, ids[i]? = some l → l = i := by
  constructor
  · intro h i l hi
    by_contra hne
    have hlen : ids.length ≤ maxCpus := by
      have hsub : ids ⊆ List.range maxCpus := fun l hl => List.mem_range.mpr (hlt l hl)
      simpa using (List.subperm_of_subset hnodup hsub).length_le
    have hi' : i < ids.length := (List.getElem?_eq_some_iff.mp hi).1
    obtain ⟨hblock, -, hbase⟩ := @setUp_spec bootStack _ hlen
    -- one call with a task whose stack is not the one of the block
    have hcall := (h _ (Reached.start.call hi (some ⟨bootStack i + 1⟩)) i l hi).1
    rw [setCurrentTask_spec (hlt l (List.mem_of_getElem? hi)), Follows] at hcall
    simp only [update_self, stackTop, Nat.add_eq_zero_iff, one_ne_zero, and_false, if_false, hbase i hi'] at hcall
    rw [update_of_ne (Ne.symm hne), hblock i (by omega)] at hcall
    have := congrArg PerCPU.rsp0 hcall
    dsimp only at this
    omega
  · intro hids s hs i l hi
    obtain ⟨hbase, hfollows⟩ := hs.follows hlt hids
    have hi' : i < ids.length := (List.getElem?_eq_some_iff.mp hi).1
    have hl := hids i l hi
    refine ⟨by rw [hl]; exact hfollows i hi', fun task j hj hne => ?_⟩
    rw [setCurrentTask_spec (hlt l (List.mem_of_getElem? hi)), hbase j hj, hl]
    exact update_of_ne hne _ _

/-- CPUs 0 and 1 have the ids 0 and 1, and CPU 1 gets a task. -/
theorem entry_stack_follows_pair : Follows (fun i => 4096 * (i + 1)) 1 1
    (setCurrentTask (fun i => 4096 * (i + 1)) 1 (some ⟨36864⟩) (setUp (fun i => 4096 * (i + 1)) 2)) := by
  have hids : ∀ i l : ℕ, [0, 1][i]? = some l → l = i := by
    intro i l hi
    rcases i with _ | _ | i
    · exact (Option.some.inj hi).symm
    · exact (Option.some.inj hi).symm
    · cases hi
  have hiff := @entry_stack_follows_iff (fun i => 4096 * (i + 1)) [0, 1] (by decide) (by decide)
  exact (hiff.mpr hids _ (Reached.start.call (i := 1) rfl _) 1 1 rfl).1

/-- CPU 0 has the id 1 and CPU 1 the id 0. CPU 0 gets a task, whose stack goes into the block of CPU 1. -/
theorem swapped_ids_diverge : ∃ s, Reached (fun i => 4096 * (i + 1)) [1, 0] s ∧ s.currentTasks 1 = some ⟨36864⟩ ∧
    s.percpu (s.gsBase 0) = ⟨4096, 4096⟩ ∧ s.percpu (s.gsBase 1) = ⟨36864, 36864⟩ :=
  ⟨_, Reached.start.call (i := 0) rfl (some ⟨36864⟩), rfl, rfl, rfl⟩

end Tori.PerCpu
