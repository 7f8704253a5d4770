import Tori.Spec.Process

/-! What the list operations of the process system do, field by field. -/

namespace Tori.Proc

open Word Loop State Function

variable {s s' : State} {p c a : Addr}

/-- All of a record but the links of child lists. -/
def Process.noKin (p : Process) : Process :=
  { p with childHead := none, childTail := none, childNext := none, childPrev := none }

/-- Only the links of child lists. -/
def Process.kin (p : Process) : Process :=
  { Process.zero with
    childHead := p.childHead, childTail := p.childTail, childNext := p.childNext, childPrev := p.childPrev }

/-- All of a record but the links of `process_list`. -/
def Process.noList (p : Process) : Process := { p with next := none, prev := none }

/-- All of a state but the records. -/
structure SameTables (s s' : State) : Prop where
  live : s'.live = s.live
  processList : s'.processList = s.processList
  pidBitmap : s'.pidBitmap = s.pidBitmap
  nextPidHint : s'.nextPidHint = s.nextPidHint
  systemInitialized : s'.systemInitialized = s.systemInitialized

theorem SameTables.refl (s : State) : SameTables s s := ⟨rfl, rfl, rfl, rfl, rfl⟩

theorem SameTables.trans {s₁ s₂ s₃ : State} (h : SameTables s₁ s₂) (h' : SameTables s₂ s₃) : SameTables s₁ s₃ :=
  ⟨h'.live.trans h.live, h'.processList.trans h.processList, h'.pidBitmap.trans h.pidBitmap,
    h'.nextPidHint.trans h.nextPidHint, h'.systemInitialized.trans h.systemInitialized⟩

theorem SameTables.modify (a : Addr) (f : Process → Process) (s : State) : SameTables s (s.modify a f) :=
  ⟨rfl, rfl, rfl, rfl, rfl⟩

@[simp] theorem proc_modify (a b : Addr) (f : Process → Process) (s : State) :
    (s.modify a f).proc b = if b = a then f (s.proc a) else s.proc b :=
  update_apply _ _ _ _

/-- A field that `f` keeps is kept in every record. -/
theorem proc_modify_same {β : Type} (g : Process → β) {f : Process → Process} (a b : Addr) (s : State)
    (hf : ∀ p, g (f p) = g p) : g ((s.modify a f).proc b) = g (s.proc b) := by
  rw [proc_modify]
  split_ifs with hb
  · rw [hf, hb]
  · rfl

/-- Records that agree on a part agree on every field of it. -/
theorem field_eq {β : Type} {part : Process → Process} {p q : Process} (h : part p = part q) (g : Process → β)
    (hg : ∀ p, g (part p) = g p) : g p = g q := by
  rw [← hg p, h, hg]

theorem rest_field {β : Type} {p q : Process} (h : p.noKin.noList = q.noKin.noList) (g : Process → β)
    (hg : ∀ p : Process, g p.noKin.noList = g p) : g p = g q := by
  rw [← hg p, h, hg]

theorem proc_modify_self (a : Addr) (f : Process → Process) (s : State) : (s.modify a f).proc a = f (s.proc a) := by
  rw [proc_modify, if_pos rfl]

theorem proc_modify_ne {b : Addr} (h : b ≠ a) (f : Process → Process) (s : State) :
    (s.modify a f).proc b = s.proc b := by rw [proc_modify, if_neg h]

theorem modify_eq_self {f : Process → Process} (h : f (s.proc a) = s.proc a) : s.modify a f = s := by
  rw [State.modify, h, update_eq_self]

/-! ### Child lists -/

theorem linkChild_tables (p c : Addr) (s : State) : SameTables s (linkChild p c s) := by
  unfold linkChild
  dsimp only
  split <;> exact ⟨rfl, rfl, rfl, rfl, rfl⟩

theorem linkChild_proc (p c a : Addr) (s : State) : (linkChild p c s).proc a = { s.proc a with
    childNext := if (s.proc p).childTail = some a then some c else if a = c then none else (s.proc a).childNext
    childPrev := if a = c then (s.proc p).childTail else (s.proc a).childPrev
    childHead := if a = p ∧ (s.proc p).childTail = none then some c else (s.proc a).childHead
    childTail := if a = p then some c else (s.proc a).childTail } := by
  unfold linkChild
  cases (s.proc p).childTail with
  | none =>
    simp only [proc_modify]
    split_ifs <;> simp_all
  | some t =>
    simp only [proc_modify]
    split_ifs <;> simp_all

theorem linkChild_noKin (p c a : Addr) (s : State) : ((linkChild p c s).proc a).noKin = (s.proc a).noKin := by
  rw [linkChild_proc]
  rfl

/-- Child lists are linked by looking at child links only. -/
theorem linkChild_kin (h : ∀ y, (s'.proc y).kin = (s.proc y).kin) (p c a : Addr) :
    ((linkChild p c s').proc a).kin = ((linkChild p c s).proc a).kin := by
  have ht : ∀ y, (s'.proc y).childTail = (s.proc y).childTail := fun y => field_eq (h y) _ fun _ => rfl
  have hh := field_eq (h a) Process.childHead fun _ => rfl
  have hn := field_eq (h a) Process.childNext fun _ => rfl
  have hp := field_eq (h a) Process.childPrev fun _ => rfl
  rw [linkChild_proc, linkChild_proc, ht, ht, hh, hn, hp]
  rfl

theorem unlinkChild_tables (p c : Addr) (s : State) : SameTables s (unlinkChild p c s) := by
  unfold unlinkChild
  dsimp only
  split <;> split <;> exact ⟨rfl, rfl, rfl, rfl, rfl⟩

theorem unlinkChild_proc (p c a : Addr) (s : State) : (unlinkChild p c s).proc a = { s.proc a with
    childNext := if a = c then none else if (s.proc c).childPrev = some a then (s.proc c).childNext else (s.proc a).childNext
    childPrev := if a = c then none else if (s.proc c).childNext = some a then (s.proc c).childPrev else (s.proc a).childPrev
    childHead := if a = p ∧ (s.proc c).childPrev = none then (s.proc c).childNext else (s.proc a).childHead
    childTail := if a = p ∧ (s.proc c).childNext = none then (s.proc c).childPrev else (s.proc a).childTail } := by
  unfold unlinkChild
  cases h1 : (s.proc c).childPrev <;> cases h2 : (s.proc c).childNext <;> simp only [proc_modify] <;> split_ifs <;>
    simp_all

theorem unlinkChild_noKin (p c a : Addr) (s : State) : ((unlinkChild p c s).proc a).noKin = (s.proc a).noKin := by
  rw [unlinkChild_proc]
  rfl

/-! ### The process list -/

theorem unlinkGlobal_proc (x a : Addr) (s : State) : (unlinkGlobal x s).proc a = { s.proc a with
    next := if a = x then none else if (s.proc x).prev = some a then (s.proc x).next else (s.proc a).next
    prev := if a = x then none else if (s.proc x).next = some a then (s.proc x).prev else (s.proc a).prev } := by
  unfold unlinkGlobal
  cases h1 : (s.proc x).prev <;> cases h2 : (s.proc x).next <;> simp only [proc_modify] <;> split_ifs <;> simp_all

theorem unlinkGlobal_list (x : Addr) (s : State) : (unlinkGlobal x s).processList =
    if (s.proc x).prev = none then (s.proc x).next else s.processList := by
  unfold unlinkGlobal
  cases h1 : (s.proc x).prev <;> cases h2 : (s.proc x).next <;> simp [State.modify]

theorem unlinkGlobal_tables (x : Addr) (s : State) :
    (unlinkGlobal x s).live = s.live ∧ (unlinkGlobal x s).pidBitmap = s.pidBitmap ∧
      (unlinkGlobal x s).nextPidHint = s.nextPidHint ∧ (unlinkGlobal x s).systemInitialized = s.systemInitialized := by
  unfold unlinkGlobal
  dsimp only
  split <;> split <;> exact ⟨rfl, rfl, rfl, rfl⟩

/-! ### Pids -/

theorem pidAlloc_some {pid : ℕ} (h : pidAlloc s = (some pid, s')) :
    s.systemInitialized = true ∧ pid < maxPids ∧ pidUsed s pid = false ∧
      s' = { s with pidBitmap := setBit s.pidBitmap pid, nextPidHint := (pid + 1) % maxPids } := by
  unfold pidAlloc at h
  split at h
  · cases h
  · rename_i hi
    split at h
    · cases h
    · rename_i offset hfind
      obtain ⟨-, -, hfree⟩ := findUp_some hfind
      injection h with h1 h2
      cases h1
      exact ⟨by simpa using hi, Nat.mod_lt _ (by decide), by simpa using hfree, h2.symm⟩

theorem findUp_none {q : ℕ → Bool} {n lo : ℕ} (h : findUp q n lo = none) (i : ℕ) (h1 : lo ≤ i) (h2 : i < lo + n) :
    q i = false := by
  rw [findUp_eq_find?, List.find?_eq_none] at h
  simpa using h i (List.mem_range'_1.mpr ⟨h1, h2⟩)

theorem pidAlloc_none (h : pidAlloc s = (none, s')) :
    s' = s ∧ (s.systemInitialized = true → ∀ pid, pid < maxPids → pidUsed s pid = true) := by
  unfold pidAlloc at h
  split at h
  · rename_i hi
    injection h with _ h
    exact ⟨h.symm, fun hi' => by rw [hi'] at hi; cases hi⟩
  · split at h
    · rename_i hnone
      injection h with _ h
      refine ⟨h.symm, fun _ pid hpid => ?_⟩
      -- the offset that reaches `pid` from the hint
      have hm : 0 < maxPids := by decide
      let offset := (pid + maxPids - s.nextPidHint % maxPids) % maxPids
      have hoff : offset < maxPids := Nat.mod_lt _ hm
      have hreach : (s.nextPidHint + offset) % maxPids = pid := by
        simp only [offset, maxPids] at *
        omega
      have hq := findUp_none hnone offset (Nat.zero_le _) (by omega)
      rw [hreach] at hq
      simpa using hq
    · cases h

/-! ### Creation -/

/-- The records before the new process is put into its lists. -/
def blank (a : Addr) (s : State) : State := { s with proc := update s.proc a .zero }

def linkParent (parent : Option Addr) (a : Addr) (s : State) : State :=
  match parent with
  | some p => linkChild p a s
  | none => s

/-- A successful `process_create`. -/
structure Created (a : Addr) (pid pml4Phys : ℕ) (parent : Option Addr) (s s' : State) : Prop where
  init : s.systemInitialized = true
  pid_lt : pid < maxPids
  pid_free : pidUsed s pid = false
  live : s'.live = update s.live a true
  processList : s'.processList = some a
  pidBitmap : s'.pidBitmap = setBit s.pidBitmap pid
  systemInitialized : s'.systemInitialized = s.systemInitialized
  record : (s'.proc a).noKin.noList =
    { Process.zero with pid := pid, pml4Phys := pml4Phys, parent := parent }
  other : ∀ x, x ≠ a → (s'.proc x).noKin.noList = (s.proc x).noKin.noList
  next : ∀ x, (s'.proc x).next = if x = a then s.processList else (s.proc x).next
  prev : ∀ x, (s'.proc x).prev =
    if s.processList = some x then some a else if x = a then none else (s.proc x).prev
  kin : ∀ x, (s'.proc x).kin = ((linkParent parent a (blank a s)).proc x).kin

variable {mem parent : Option Addr} {pml4Phys : ℕ} {x : Addr}

theorem Created.field {β : Type} {pid : ℕ} (hc : Created a pid pml4Phys parent s s') (g : Process → β)
    (hg : ∀ p : Process, g p.noKin.noList = g p) (hx : x ≠ a) : g (s'.proc x) = g (s.proc x) :=
  rest_field (hc.other x hx) g hg

theorem processCreate_ok (h : processCreate mem pml4Phys parent s = (some a, s')) :
    mem = some a ∧ ∃ pid, Created a pid pml4Phys parent s s' := by
  unfold processCreate at h
  cases mem with
  | none => cases h
  | some b =>
    dsimp only at h
    rcases hp : pidAlloc (s.alloc b) with ⟨r, s1⟩
    rw [hp] at h
    cases r with
    | none => cases h
    | some pid =>
      obtain ⟨hinit, hlt, hfree, hs1⟩ := pidAlloc_some hp
      injection h with h1 h2
      injection h1 with h1
      subst h1
      refine ⟨rfl, pid, ?_⟩
      let rec₀ : Process := { Process.zero with
        pid := pid, pml4Phys := pml4Phys, parent := parent, next := s.processList }
      let s2 : State := { s1 with proc := update s.proc b rec₀ }
      have hs2 : (s1.modify b fun p => { p with
          pid := pid, state := .alive, exitStatus := 0, pml4Phys := pml4Phys, parent := parent, threadList := none,
          next := s1.processList, prev := none }) = s2 := by
        subst hs1
        simp only [State.modify, State.alloc, s2, rec₀, update_self, update_idem, Process.zero]
      rw [hs2] at h2
      let s3 : State := linkParent parent b s2
      have ht3 : SameTables s2 s3 := by
        simp only [s3]
        cases parent with
        | none => exact SameTables.refl _
        | some p => exact linkChild_tables p b s2
      have hn3 : ∀ x, (s3.proc x).noKin = (s2.proc x).noKin := by
        intro x
        simp only [s3]
        cases parent with
        | none => rfl
        | some p => exact linkChild_noKin p b x s2
      have hlist : s3.processList = s.processList := by
        rw [ht3.processList]
        subst hs1
        rfl
      have h2' : { (match s.processList with
          | some h => s3.modify h fun p => { p with prev := some b }
          | none => s3) with processList := some b } = s' := by
        rw [← h2, ← hlist]
        cases parent <;> rfl
      have hproc : ∀ x, s'.proc x = if s.processList = some x then { s3.proc x with prev := some b } else s3.proc x := by
        intro x
        rw [← h2']
        cases s.processList with
        | none => rfl
        | some hd =>
          have hm := proc_modify hd x (fun p => { p with prev := some b }) s3
          by_cases hx : x = hd
          · subst hx
            rw [if_pos rfl] at hm ⊢
            exact hm
          · rw [if_neg hx] at hm
            rw [if_neg fun he => hx (Option.some.inj he).symm]
            exact hm
      have htab : s'.live = s1.live ∧ s'.pidBitmap = s1.pidBitmap ∧ s'.systemInitialized = s1.systemInitialized ∧
          s'.processList = some b := by
        rw [← h2']
        cases s.processList with
        | none => exact ⟨ht3.live, ht3.pidBitmap, ht3.systemInitialized, rfl⟩
        | some hd => exact ⟨ht3.live, ht3.pidBitmap, ht3.systemInitialized, rfl⟩
      have hs2b : s2.proc b = rec₀ := update_self _ _ _
      have hs2x : ∀ x, x ≠ b → s2.proc x = s.proc x := fun x hx => update_of_ne hx _ _
      have hnext3 : ∀ x, (s3.proc x).next = (s2.proc x).next := fun x => field_eq (hn3 x) _ fun _ => rfl
      have hprev3 : ∀ x, (s3.proc x).prev = (s2.proc x).prev := fun x => field_eq (hn3 x) _ fun _ => rfl
      have hrest : ∀ x, (s'.proc x).noKin.noList = (s2.proc x).noKin.noList := by
        intro x
        rw [hproc x, ← hn3 x]
        split_ifs <;> rfl
      subst hs1
      refine ⟨hinit, hlt, hfree, htab.1, htab.2.2.2, htab.2.1, htab.2.2.1, ?_, fun x hx => ?_, fun x => ?_, fun x => ?_,
        fun x => ?_⟩
      · rw [hrest, hs2b]
        rfl
      · rw [hrest, hs2x x hx]
      · have hn : (s'.proc x).next = (s3.proc x).next := by
          rw [hproc x]
          split_ifs <;> rfl
        rw [hn, hnext3]
        by_cases hx : x = b
        · rw [if_pos hx, hx, hs2b]
        · rw [if_neg hx, hs2x x hx]
      · rw [hproc x]
        split_ifs with hh hx
        · rfl
        · rw [hprev3, hx, hs2b]
          rfl
        · rw [hprev3, hs2x x hx]
      · have hk : (s'.proc x).kin = (s3.proc x).kin := by
          rw [hproc x]
          split_ifs <;> rfl
        rw [hk]
        have hkin2 : ∀ y, (s2.proc y).kin = ((blank b s).proc y).kin := by
          intro y
          by_cases hy : y = b
          · rw [hy, hs2b]
            change _ = (update s.proc b Process.zero b).kin
            rw [update_self]
            rfl
          · rw [hs2x y hy]
            change _ = (update s.proc b Process.zero y).kin
            rw [update_of_ne hy]
        simp only [s3]
        cases parent with
        | none => exact hkin2 x
        | some p => exact linkChild_kin hkin2 p b x

/-- A failed `process_create`: there was no memory, or no pid. -/
theorem processCreate_fail (h : processCreate mem pml4Phys parent s = (none, s')) :
    (mem = none ∧ s' = s) ∨ ∃ b, mem = some b ∧ s' = (s.alloc b).free b ∧
      (s.systemInitialized = true → ∀ pid, pid < maxPids → pidUsed s pid = true) := by
  unfold processCreate at h
  cases mem with
  | none =>
    injection h with _ h
    exact Or.inl ⟨rfl, h.symm⟩
  | some b =>
    dsimp only at h
    rcases hp : pidAlloc (s.alloc b) with ⟨r, s1⟩
    rw [hp] at h
    cases r with
    | none =>
      obtain ⟨hs, hall⟩ := pidAlloc_none hp
      injection h with _ h
      exact Or.inr ⟨b, rfl, by rw [← h, hs], hall⟩
    | some pid => cases h

/-! ### Removal -/

def unlinkParent (x : Addr) (s : State) : State :=
  match (s.proc x).parent with
  | some p => unlinkChild p x s
  | none => s

theorem unlinkParent_tables (x : Addr) (s : State) : SameTables s (unlinkParent x s) := by
  unfold unlinkParent
  split
  · exact unlinkChild_tables _ x s
  · exact SameTables.refl s

theorem unlinkParent_noKin (x a : Addr) (s : State) : ((unlinkParent x s).proc a).noKin = (s.proc a).noKin := by
  unfold unlinkParent
  split
  · exact unlinkChild_noKin _ x a s
  · rfl

/-- `reap_process` of a zombie. -/
structure Reaped (x : Addr) (s s' : State) : Prop where
  live : s'.live = update s.live x false
  processList : s'.processList = if (s.proc x).prev = none then (s.proc x).next else s.processList
  pidBitmap : s'.pidBitmap = if (s.proc x).pid ≥ maxPids ∨ s.systemInitialized = false then s.pidBitmap
    else clearBit s.pidBitmap (s.proc x).pid
  systemInitialized : s'.systemInitialized = s.systemInitialized
  rest : ∀ y, (s'.proc y).noKin.noList = (s.proc y).noKin.noList
  next : ∀ y, (s'.proc y).next =
    if y = x then none else if (s.proc x).prev = some y then (s.proc x).next else (s.proc y).next
  prev : ∀ y, (s'.proc y).prev =
    if y = x then none else if (s.proc x).next = some y then (s.proc x).prev else (s.proc y).prev
  kin : ∀ y, (s'.proc y).kin = ((unlinkParent x s).proc y).kin

theorem Reaped.field {β : Type} (hr : Reaped x s s') (g : Process → β) (hg : ∀ p : Process, g p.noKin.noList = g p)
    (y : Addr) : g (s'.proc y) = g (s.proc y) :=
  rest_field (hr.rest y) g hg

theorem pidFree_tables (pid : ℕ) (s : State) : (pidFree pid s).proc = s.proc ∧ (pidFree pid s).live = s.live ∧
    (pidFree pid s).processList = s.processList ∧ (pidFree pid s).systemInitialized = s.systemInitialized ∧
    (pidFree pid s).pidBitmap =
      if pid ≥ maxPids ∨ s.systemInitialized = false then s.pidBitmap else clearBit s.pidBitmap pid := by
  unfold pidFree
  split_ifs <;> exact ⟨rfl, rfl, rfl, rfl, rfl⟩

theorem reapProcess_zombie (hz : (s.proc x).state = .zombie) : Reaped x s (reapProcess x s) := by
  let s1 := unlinkParent x s
  let s2 := unlinkGlobal x s1
  have hs' : reapProcess x s = (pidFree (s2.proc x).pid s2).free x := by
    unfold reapProcess
    rw [if_neg (not_not.mpr hz)]
    rfl
  have t1 : SameTables s s1 := unlinkParent_tables x s
  obtain ⟨hl2, hb2, -, hi2⟩ := unlinkGlobal_tables x s1
  have k1 : ∀ y, (s1.proc y).noKin = (s.proc y).noKin := fun y => unlinkParent_noKin x y s
  have hnext : ∀ y, (s1.proc y).next = (s.proc y).next := fun y => field_eq (k1 y) _ fun _ => rfl
  have hprev : ∀ y, (s1.proc y).prev = (s.proc y).prev := fun y => field_eq (k1 y) _ fun _ => rfl
  have hpid : (s2.proc x).pid = (s.proc x).pid := by
    rw [unlinkGlobal_proc]
    exact field_eq (k1 x) Process.pid fun _ => rfl
  obtain ⟨fp, fl, flist, fi, fb⟩ := pidFree_tables (s2.proc x).pid s2
  have hproc : ((pidFree (s2.proc x).pid s2).free x).proc = s2.proc := fp
  rw [hs']
  refine ⟨?_, ?_, ?_, ?_, fun y => ?_, fun y => ?_, fun y => ?_, fun y => ?_⟩
  · change update (pidFree (s2.proc x).pid s2).live x false = _
    rw [fl, hl2, t1.live]
  · change (pidFree (s2.proc x).pid s2).processList = _
    rw [flist, unlinkGlobal_list, hnext, hprev, t1.processList]
  · change (pidFree (s2.proc x).pid s2).pidBitmap = _
    rw [fb, hpid, hb2, hi2, t1.pidBitmap, t1.systemInitialized]
  · change (pidFree (s2.proc x).pid s2).systemInitialized = _
    rw [fi, hi2, t1.systemInitialized]
  all_goals rw [hproc, unlinkGlobal_proc]
  · change (s1.proc y).noKin.noList = _
    rw [k1]
  · rw [← hnext, ← hnext, ← hprev]
  · rw [← hnext, ← hprev, ← hprev]
  · rfl

theorem reapProcess_other (hz : (s.proc x).state ≠ .zombie) : reapProcess x s = s := by
  unfold reapProcess
  rw [if_pos hz]

end Tori.Proc
