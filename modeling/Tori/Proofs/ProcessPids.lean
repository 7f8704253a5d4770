import Tori.Sanity.Process

/-! Pids. The bitmap and `process_list` agree through every creation and removal, whatever happens to
the child lists meanwhile. -/

namespace Tori.Proc

open Word DList State Function

variable {s s' : State} {procs : List Addr}

/-- `procs` is what `process_list` links together; its pids are distinct and are the ones in use. -/
structure Listed (s : State) (procs : List Addr) : Prop where
  linked : Linked (fun a => (s.proc a).next) (fun a => (s.proc a).prev) procs
  head : s.processList = procs.head?
  live : ∀ a, a ∈ procs ↔ s.live a = true
  distinct : (procs.map fun a => (s.proc a).pid).Nodup
  bound : ∀ a ∈ procs, (s.proc a).pid < maxPids
  bits : ∀ pid, pid < maxPids → (pidUsed s pid = true ↔ ∃ a ∈ procs, (s.proc a).pid = pid)
  init : s.systemInitialized = true

/-- The fields that `Listed` reads. -/
def Process.listing (p : Process) : Option Addr × Option Addr × ℕ := (p.next, p.prev, p.pid)

section

variable (h : Listed s procs)
include h

theorem Listed.congr (ht : SameTables s s')
    (hl : ∀ a ∈ procs, (s'.proc a).listing = (s.proc a).listing) : Listed s' procs := by
  have hn : ∀ a ∈ procs, (s'.proc a).next = (s.proc a).next := fun a ha => congrArg Prod.fst (hl a ha)
  have hp : ∀ a ∈ procs, (s'.proc a).prev = (s.proc a).prev := fun a ha => congrArg (fun l => l.2.1) (hl a ha)
  have hpid : ∀ a ∈ procs, (s'.proc a).pid = (s.proc a).pid := fun a ha => congrArg (fun l => l.2.2) (hl a ha)
  refine ⟨h.linked.congr hn hp, ht.processList.trans h.head, fun a => ht.live ▸ h.live a, ?_, fun a ha => ?_,
    fun pid hlt => ?_, ht.systemInitialized.trans h.init⟩
  · rw [List.map_congr_left hpid]
    exact h.distinct
  · rw [hpid a ha]
    exact h.bound a ha
  · have hb : pidUsed s' pid = pidUsed s pid := by
      unfold pidUsed
      rw [ht.pidBitmap]
    rw [hb, h.bits pid hlt]
    exact ⟨fun ⟨a, ha, he⟩ => ⟨a, ha, (hpid a ha).trans he⟩, fun ⟨a, ha, he⟩ => ⟨a, ha, (hpid a ha).symm.trans he⟩⟩

theorem Listed.modify (x : Addr) (f : Process → Process) (hf : ∀ p, (f p).listing = p.listing) :
    Listed (s.modify x f) procs :=
  h.congr (SameTables.modify x f s) fun a _ => proc_modify_same Process.listing x a s hf

theorem Listed.length_le : procs.length ≤ maxPids := by
  have hsub : (procs.map fun a => (s.proc a).pid) ⊆ List.range maxPids := by
    intro pid hp
    obtain ⟨a, ha, rfl⟩ := List.mem_map.mp hp
    exact List.mem_range.mpr (h.bound a ha)
  have hle := (h.distinct.subperm hsub).length_le
  rwa [List.length_map, List.length_range] at hle

theorem Listed.find (pid : ℕ) : findProcess pid s = some (procs.find? fun a => (s.proc a).pid = pid) := by
  unfold findProcess
  rw [h.head]
  exact h.linked.find_eq _ (Nat.lt_succ_of_le h.length_le)

theorem Listed.find_self {a : Addr} (ha : a ∈ procs) : findProcess (s.proc a).pid s = some (some a) := by
  rw [h.find]
  cases hf : procs.find? fun b => (s.proc b).pid = (s.proc a).pid with
  | none =>
    have := List.find?_eq_none.mp hf a ha
    simp at this
  | some b =>
    have hb : (s.proc b).pid = (s.proc a).pid := by simpa using List.find?_some hf
    rw [List.inj_on_of_nodup_map h.distinct (List.mem_of_find?_eq_some hf) ha hb]

theorem Listed.find_none {pid : ℕ} (hno : ∀ a ∈ procs, (s.proc a).pid ≠ pid) : findProcess pid s = some none := by
  rw [h.find, List.find?_eq_none.mpr fun a ha => by simpa using hno a ha]

theorem Listed.created {a : Addr} {pid pml4Phys : ℕ} {parent : Option Addr} (ha : a ∉ procs)
    (hc : Created a pid pml4Phys parent s s') : Listed s' (a :: procs) := by
  have hne : ∀ x ∈ procs, x ≠ a := fun x hx hxa => ha (hxa ▸ hx)
  have hpid : ∀ x ∈ procs, (s'.proc x).pid = (s.proc x).pid := fun x hx => hc.field Process.pid (fun _ => rfl) (hne x hx)
  have hpida : (s'.proc a).pid = pid := by
    exact congrArg Process.pid hc.record
  have hmap : (procs.map fun x => (s'.proc x).pid) = procs.map fun x => (s.proc x).pid := List.map_congr_left hpid
  have hused : ∀ q, pidUsed s' q = true ↔ pidUsed s q = true ∨ q = pid := by
    intro q
    unfold pidUsed
    rw [hc.pidBitmap, bitAt_setBit]
    split_ifs with hq <;> simp [hq]
  have hnew : ∀ x ∈ procs, (s.proc x).pid ≠ pid := by
    intro x hx heq
    have := (h.bits pid hc.pid_lt).mpr ⟨x, hx, heq⟩
    rw [hc.pid_free] at this
    cases this
  refine ⟨h.linked.cons ha (fun y hy => ?_) ?_ (fun y hy => ?_) (fun y hy hhd => ?_) ?_, hc.processList, fun x => ?_, ?_,
    fun x hx => ?_, fun q hq => ?_, hc.systemInitialized.trans h.init⟩
  · rw [hc.next, if_neg (hne y hy)]
  · rw [hc.next, if_pos rfl, h.head]
  · rw [hc.prev, h.head, if_pos hy]
  · rw [hc.prev, h.head, if_neg hhd, if_neg (hne y hy)]
  · have hhd : procs.head? ≠ some a := fun he => ha (List.mem_of_mem_head? he)
    rw [hc.prev, h.head, if_neg hhd, if_pos rfl]
  · rw [hc.live, List.mem_cons]
    by_cases hx : x = a
    · simp [hx]
    · rw [update_of_ne hx, ← h.live x]
      exact or_iff_right hx
  · rw [List.map_cons, hmap, hpida, List.nodup_cons]
    refine ⟨fun hm => ?_, h.distinct⟩
    obtain ⟨x, hx, heq⟩ := List.mem_map.mp hm
    exact hnew x hx heq
  · rcases List.mem_cons.mp hx with rfl | hx
    · rw [hpida]
      exact hc.pid_lt
    · rw [hpid x hx]
      exact h.bound x hx
  · rw [hused q, h.bits q hq]
    constructor
    · rintro (⟨x, hx, heq⟩ | rfl)
      · exact ⟨x, List.mem_cons_of_mem _ hx, (hpid x hx).trans heq⟩
      · exact ⟨a, List.mem_cons_self, hpida⟩
    · rintro ⟨x, hx, heq⟩
      rcases List.mem_cons.mp hx with rfl | hx
      · exact Or.inr (heq.symm.trans hpida)
      · exact Or.inl ⟨x, hx, (hpid x hx).symm.trans heq⟩

end

theorem SameTables.failed {b : Addr} (hb : s.live b = false) : SameTables s ((s.alloc b).free b) := by
  refine ⟨?_, rfl, rfl, rfl, rfl⟩
  change update (update s.live b true) b false = s.live
  rw [update_idem, ← hb, update_eq_self]

theorem Listed.failed_proc {b : Addr} (h : Listed s procs) (hb : s.live b = false) :
    ∀ x ∈ procs, ((s.alloc b).free b).proc x = s.proc x := by
  intro x hx
  refine update_of_ne ?_ _ _
  rintro rfl
  rw [(h.live x).mp hx] at hb
  cases hb

theorem Listed.failed {b : Addr} (h : Listed s procs) (hb : s.live b = false) : Listed ((s.alloc b).free b) procs :=
  h.congr (SameTables.failed hb) fun x hx => by rw [h.failed_proc hb x hx]

theorem Listed.reaped {ys zs : List Addr} {x : Addr} (h : Listed s (ys ++ x :: zs)) (hr : Reaped x s s') :
    Listed s' (ys ++ zs) := by
  have hnd := h.linked.nodup
  have hmem : ∀ y, y ∈ ys ++ zs ↔ y ∈ ys ++ x :: zs ∧ y ≠ x := fun y => mem_split hnd
  have hnext : (s.proc x).next = zs.head? := h.linked.next_eq ys x zs rfl
  have hprev : (s.proc x).prev = ys.getLast? := h.linked.prev_eq ys x zs rfl
  have hpid : ∀ y, (s'.proc y).pid = (s.proc y).pid := hr.field Process.pid fun _ => rfl
  have hx : x ∈ ys ++ x :: zs := by simp
  have hlt := h.bound x hx
  have hmap : ((ys ++ zs).map fun y => (s'.proc y).pid) = (ys ++ zs).map fun y => (s.proc y).pid :=
    List.map_congr_left fun y _ => hpid y
  have hsub : (ys ++ zs).Sublist (ys ++ x :: zs) := (List.sublist_cons_self x zs).append_left ys
  have hother : ∀ y ∈ ys ++ zs, (s.proc y).pid ≠ (s.proc x).pid := fun y hy heq =>
    ((hmem y).mp hy).2 (List.inj_on_of_nodup_map h.distinct ((hmem y).mp hy).1 hx heq)
  have hused : ∀ q, pidUsed s' q = true ↔ pidUsed s q = true ∧ q ≠ (s.proc x).pid := by
    intro q
    have hcond : ¬ ((s.proc x).pid ≥ maxPids ∨ s.systemInitialized = false) := by
      rw [h.init]
      rintro (hge | hf)
      · omega
      · cases hf
    unfold pidUsed
    rw [hr.pidBitmap, if_neg hcond, bitAt_clearBit]
    split_ifs with hq <;> simp [hq]
  refine ⟨h.linked.remove (fun y hy => ?_) (fun y hy hne => ?_) (fun y hy => ?_) (fun y hy hne => ?_), ?_, fun y => ?_,
    ?_, fun y hy => ?_, fun q hq => ?_, hr.systemInitialized.trans h.init⟩
  · have hyx : y ≠ x := ((hmem y).mp (List.mem_append_left _ (List.mem_of_mem_getLast? hy))).2
    rw [hr.next, if_neg hyx, hprev, if_pos hy, hnext]
  · rw [hr.next, if_neg ((hmem y).mp hy).2, hprev, if_neg hne]
  · have hyx : y ≠ x := ((hmem y).mp (List.mem_append_right _ (List.mem_of_mem_head? hy))).2
    rw [hr.prev, if_neg hyx, hnext, if_pos hy, hprev]
  · rw [hr.prev, if_neg ((hmem y).mp hy).2, hnext, if_neg hne]
  · rw [hr.processList, hprev, hnext, h.head]
    cases ys with
    | nil => rfl
    | cons y ys => simp
  · rw [hmem y, hr.live, h.live y]
    by_cases hyx : y = x
    · simp [hyx]
    · rw [update_of_ne hyx]
      exact and_iff_left hyx
  · rw [hmap]
    exact h.distinct.sublist (hsub.map _)
  · rw [hpid y]
    exact h.bound y ((hmem y).mp hy).1
  · rw [hused q, h.bits q hq]
    constructor
    · rintro ⟨⟨y, hy, rfl⟩, hne⟩
      exact ⟨y, (hmem y).mpr ⟨hy, fun he => hne (by rw [he])⟩, hpid y⟩
    · rintro ⟨y, hy, rfl⟩
      rw [hpid y]
      exact ⟨⟨y, ((hmem y).mp hy).1, rfl⟩, hother y hy⟩

/-! ### Runs -/

/-- Runs of `process_create`, with any parent, and `reap_process`; between them processes exit. -/
inductive PidRun (s₀ : State) : State → Prop
  | start : PidRun s₀ s₀
  | create {s : State} (mem parent : Option Addr) (pml4Phys : ℕ) (hfresh : ∀ a, mem = some a → s.live a = false)
      (h : PidRun s₀ s) : PidRun s₀ (processCreate mem pml4Phys parent s).2
  | exit {s : State} (x : Addr) (status : ℤ) (h : PidRun s₀ s) : PidRun s₀ (markZombie x status s)
  | reap {s : State} (x : Addr) (hx : s.live x = true) (h : PidRun s₀ s) : PidRun s₀ (reapProcess x s)

theorem Listed.start (h : ∀ a, s.live a = false) : Listed (initProcessSystem s) [] := by
  refine ⟨Linked.nil, rfl, fun a => ?_, List.nodup_nil, fun a ha => (nomatch ha), fun pid hlt => ?_, rfl⟩
  · change a ∈ [] ↔ s.live a = true
    simp [h a]
  · have hz : pidUsed (initProcessSystem s) pid = false := by
      change bitAt (fun _ => 0) pid = false
      simp [bitAt]
    simp [hz]

theorem Listed.create (h : Listed s procs) (mem parent : Option Addr) (pml4Phys : ℕ)
    (hfresh : ∀ a, mem = some a → s.live a = false) :
    ∃ procs', Listed (processCreate mem pml4Phys parent s).2 procs' := by
  rcases hc : processCreate mem pml4Phys parent s with ⟨r, s'⟩
  cases r with
  | none =>
    rcases processCreate_fail hc with ⟨-, rfl⟩ | ⟨b, hb, rfl, -⟩
    · exact ⟨procs, h⟩
    · exact ⟨procs, h.failed (hfresh b hb)⟩
  | some a =>
    obtain ⟨hmem, pid, hcr⟩ := processCreate_ok hc
    refine ⟨a :: procs, h.created (fun ha => ?_) hcr⟩
    have hl := (h.live a).mp ha
    rw [hfresh a hmem] at hl
    cases hl

theorem Listed.reap (h : Listed s procs) {x : Addr} (hx : s.live x = true) :
    ∃ procs', Listed (reapProcess x s) procs' := by
  by_cases hz : (s.proc x).state = .zombie
  · obtain ⟨ys, zs, rfl⟩ := List.append_of_mem ((h.live x).mpr hx)
    exact ⟨ys ++ zs, h.reaped (reapProcess_zombie hz)⟩
  · rw [reapProcess_other hz]
    exact ⟨procs, h⟩

theorem PidRun.listed {s₀ : State} (h₀ : ∀ a, s₀.live a = false) (hrun : PidRun (initProcessSystem s₀) s) :
    ∃ procs, Listed s procs := by
  induction hrun with
  | start => exact ⟨[], Listed.start h₀⟩
  | create mem parent pml4Phys hfresh _ ih =>
    obtain ⟨procs, h⟩ := ih
    exact h.create mem parent pml4Phys hfresh
  | exit x status _ ih =>
    obtain ⟨procs, h⟩ := ih
    exact ⟨procs, h.modify x _ fun _ => rfl⟩
  | reap x hx _ ih =>
    obtain ⟨procs, h⟩ := ih
    exact h.reap hx

/-- In every state of a run: the listed processes have distinct pids, the bitmap says which are in use,
`find_process` finds them, and `pid_alloc` fails, wherever its hint points, only if all are in use. -/
theorem pids_consistent {s₀ : State} (h₀ : ∀ a, s₀.live a = false) (hrun : PidRun (initProcessSystem s₀) s) :
    ∃ procs : List Addr,
      (Linked (fun a => (s.proc a).next) (fun a => (s.proc a).prev) procs ∧ s.processList = procs.head? ∧
        ∀ a, a ∈ procs ↔ s.live a = true) ∧
      procs.Pairwise (fun a b => (s.proc a).pid ≠ (s.proc b).pid) ∧
      (∀ pid, pid < maxPids → (pidUsed s pid = true ↔ ∃ a ∈ procs, (s.proc a).pid = pid)) ∧
      (∀ a ∈ procs, findProcess (s.proc a).pid s = some (some a)) ∧
      (∀ pid, (∀ a ∈ procs, (s.proc a).pid ≠ pid) → findProcess pid s = some none) ∧
      ∀ hint, (pidAlloc { s with nextPidHint := hint }).1 = none →
        ∀ pid, pid < maxPids → ∃ a ∈ procs, (s.proc a).pid = pid := by
  obtain ⟨procs, h⟩ := hrun.listed h₀
  refine ⟨procs, ⟨h.linked, h.head, h.live⟩, List.pairwise_map.mp h.distinct, h.bits, fun a ha => h.find_self ha,
    fun pid hno => h.find_none hno, fun hint hnone pid hlt => ?_⟩
  rcases hp : pidAlloc { s with nextPidHint := hint } with ⟨r, s'⟩
  rw [hp] at hnone
  subst hnone
  exact (h.bits pid hlt).mp ((pidAlloc_none hp).2 h.init pid hlt)

/-- No process, no memory in use. -/
def noProcesses : State := ⟨fun _ => .zero, fun _ => false, none, fun _ => 0, 0, false⟩

theorem pids_consistent_first :
    findProcess 0 (processCreate (some 1) 0 none (initProcessSystem noProcesses)).2 = some (some 1) := by
  have hrun : PidRun (initProcessSystem noProcesses) (processCreate (some 1) 0 none (initProcessSystem noProcesses)).2 :=
    .create (some 1) none 0 (fun _ _ => rfl) .start
  obtain ⟨procs, ⟨-, -, hlive⟩, -, -, hfind, -⟩ := pids_consistent (fun _ => rfl) hrun
  exact hfind 1 ((hlive 1).mpr rfl)

end Tori.Proc
