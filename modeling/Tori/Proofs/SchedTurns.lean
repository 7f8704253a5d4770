import Tori.Proofs.SchedQueue

/-! The ready queue is served in turn. An operation that gives up the CPU runs the first queued task, and the others only
queue tasks behind it, so a queued task waits for those ahead of it and for no others. -/

namespace Tori.Sched

variable {boot c x : Addr} {q : List Addr} {s s' : State} {op : Op} {n : ℕ}

/-- The operations that end in `schedule_internal`. -/
def Op.switches : Op → Bool
  | .yield | .block | .schedDoPreempt | .taskFinished => true
  | _ => false

/-- The runs from `s` with `n` such operations. -/
inductive Turns (s : State) : ℕ → State → Prop
  | start : Turns s 0 s
  | step {n : ℕ} {s' : State} {op : Op} (h : Turns s n s') (hop : Allowed s' op) (hok : WakeOk s' op) :
      Turns s (if op.switches then n + 1 else n) (exec op s')

theorem Parked.next (h : Parked boot s (x :: q) c) : Inv boot (Sched.scheduleInternal s) q x := by
  obtain ⟨q', c', hinv⟩ := h.scheduleInternal
  rcases h.scheduleInternal_cases with ⟨hnil, -⟩ | ⟨y, r, hq | ⟨hnil, -⟩, hsw⟩
  · cases hnil
  · cases hq
    obtain rfl := Option.some.inj (hinv.currentTask.symm.trans hsw.currentTask)
    obtain rfl := hinv.queue.linked.unique hsw.queue.linked (hinv.queue.head.symm.trans hsw.queue.head)
    exact hinv
  · cases hnil

theorem Inv.switch (h : Inv boot s (x :: q) c) (hop : op.switches = true) : ∃ r, Inv boot (exec op s) (q ++ r) x := by
  have hcur := h.currentTask
  cases op with
  | yield =>
    refine ⟨[c], ?_⟩
    rw [exec, yield, hcur]
    exact h.toHolds.requeue.next
  | block =>
    refine ⟨[], ?_⟩
    rw [exec, block, hcur, List.append_nil]
    exact (h.toHolds.stop (.inl rfl)).next
  | schedDoPreempt =>
    obtain ⟨s₁, h₁, -, -, heq⟩ := h.preempt_eq
    rw [exec, heq]
    split_ifs with hrun
    · exact ⟨[c], h₁.toHolds.ready.requeue.next⟩
    · refine ⟨[], ?_⟩
      rw [List.append_nil]
      exact (h₁.stopped hrun).next
  | taskFinished =>
    refine ⟨[], ?_⟩
    rw [exec, taskFinished, hcur, List.append_nil]
    exact (h.toHolds.stop (.inr rfl)).next
  | createTask | schedEnqueue | wake => cases hop

theorem Inv.stay (h : Inv boot s q c) (hs : op.switches = false) (hop : Allowed s op) (hok : WakeOk s op) :
    ∃ r, Inv boot (exec op s) (q ++ r) c := by
  have hsame : ∃ r, Inv boot s (q ++ r) c := ⟨[], (List.append_nil q).symm ▸ h⟩
  cases op with
  | createTask mem stack =>
    rw [exec]
    rcases createTaskInternal_cases mem stack s with he | ⟨t, s', hmem, he, hj⟩
    · rw [he]
      exact hsame
    · rw [he]
      exact ⟨[t], h.fresh hj (hop t hmem)⟩
  | schedEnqueue t => exact ⟨[t], h.fresh (schedEnqueue_fresh t s) hop⟩
  | wake t =>
    by_cases hb : (s.task t).state = .blocked
    · obtain ⟨htq, htc⟩ := h.blocked_out hb hok
      exact ⟨[t], h.joins (wake_joins hop hb) htq htc⟩
    · rw [exec, Sched.wake, if_neg hb]
      exact hsame
  | yield | block | schedDoPreempt | taskFinished => cases hs

/-- After `n` switches the tasks that were queued at first stand `n` places further ahead. -/
theorem Inv.turns (h : Inv boot s q c) (ht : Turns s n s') (hn : n ≤ q.length) :
    ∃ r c', Inv boot s' (q.drop n ++ r) c' := by
  induction ht with
  | start => exact ⟨[], c, by simpa using h⟩
  | @step n s' op _ hop hok ih =>
    split_ifs at hn ⊢ with hs
    · obtain ⟨r, c', h'⟩ := ih (by omega)
      rw [List.drop_eq_getElem_cons hn] at h'
      obtain ⟨r', h''⟩ := h'.switch hs
      exact ⟨r ++ r', _, by simpa using h''⟩
    · obtain ⟨r, c', h'⟩ := ih hn
      obtain ⟨r', h''⟩ := h'.stay (Bool.eq_false_of_not_eq_true hs) hop hok
      exact ⟨r ++ r', c', by simpa using h''⟩

/-- A task with `k` others ahead of it in the ready queue runs after `k + 1` switches, whatever else happens. -/
theorem served_in_turn {bsp : Addr} {idle : Option Addr} {stack : Bool} {s₀ s₁ s₂ : State} (hidle : idle ≠ some bsp)
    (hprep : Prepared (initTaskSystem s₀.lapicId bsp idle stack s₀) s₁) (hstart : startScheduler s₁ = some s₂)
    (hl : s₀.lapicId < maxCpus) (hrun : Run WakeOk s₂ s) :
    ∃ q, Queue s q ∧ ∀ ahead t rest s' op, q = ahead ++ t :: rest → Turns s ahead.length s' → op.switches = true →
      currentTask (exec op s') = some t := by
  obtain ⟨_, hlaunch⟩ := Launch.prepared (launch_init bsp idle stack s₀ hidle) hprep
  obtain ⟨q, c, h⟩ := Inv.run (hlaunch.start hl hstart) hrun
  refine ⟨q, h.queue, fun ahead t rest s' op hq ht hsw => ?_⟩
  obtain ⟨r, c', h'⟩ := h.turns ht (by simp [hq])
  rw [hq, List.drop_left] at h'
  obtain ⟨_, hnext⟩ := h'.switch hsw
  exact hnext.currentTask

theorem served_in_turn_two : ∃ s₂, startScheduler withIdle = some s₂ ∧ currentTask (exec .yield s₂) = some 3 := by
  have hprep : Prepared (initTaskSystem (coldState 0).lapicId 1 (some 2) true (coldState 0)) withIdle :=
    .create .init fun a ha => by
      cases ha
      decide
  obtain ⟨s₂, hs₂, hhead⟩ : ∃ s₂, startScheduler withIdle = some s₂ ∧ s₂.head = some 3 := ⟨_, rfl, rfl⟩
  obtain ⟨q, hq, hserved⟩ := served_in_turn (by decide) hprep hs₂ (by decide) .start
  obtain ⟨rest, hcons⟩ := List.head?_eq_some_iff.mp (hq.head.symm.trans hhead)
  exact ⟨s₂, hs₂, hserved [] 3 rest s₂ .yield hcons .start rfl⟩

end Tori.Sched
