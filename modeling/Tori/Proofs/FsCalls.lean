import Tori.Proofs.FsSteady
import Tori.Proofs.VfsResolve

/-! The calls of `vfs.cpp` over the vnode heap: what a call keeps of the tables, the descriptors
and the heap as long as nothing is removed. -/

namespace Tori.Fs

open Vfs State Function

variable {s s' s₁ s₂ : State} {A : Allocator} {g : Layers} {t : Table Addr}

variable {v root : Addr} {base : Option Addr} {e : Err} {fs : FsType} {f : FdTable Addr} {y : Sys}

/-- Mount points, mounted roots and the root vnode are live. -/
structure TableOk (t : Table Addr) (s : State) : Prop where
  mount : ∀ i e, t.mountTable i = some e → s.live e.mountPoint = true ∧ s.live e.mountedRoot = true
  root : ∀ r, t.rootVnode = some r → s.live r = true

theorem TableOk.mono (h : TableOk t s) (hg : Grows s s') : TableOk t s' :=
  ⟨fun i e he => ⟨hg.live _ (h.mount i e he).1, hg.live _ (h.mount i e he).2⟩, fun r hr => hg.live r (h.root r hr)⟩

theorem findMountByPoint_some {i : Fin maxMounts} (h : findMountByPoint t v = some i) :
    ∃ e, t.mountTable i = some e ∧ e.mountPoint = v := by
  have hi := List.find?_some h
  cases he : t.mountTable i with
  | none => simp [he] at hi
  | some e => exact ⟨e, rfl, by simpa [he] using hi⟩

theorem resolveMount_cases (t : Table Addr) (v : Addr) :
    (resolveMount t v = v ∧ ∀ i e, t.mountTable i = some e → e.mountPoint ≠ v) ∨
      ∃ i e, t.mountTable i = some e ∧ e.mountPoint = v ∧ resolveMount t v = e.mountedRoot := by
  unfold resolveMount
  cases h : findMountByPoint t v with
  | none =>
    refine Or.inl ⟨rfl, fun i e he hv => ?_⟩
    have := List.find?_eq_none.mp h i (List.mem_finRange i)
    simp [he, hv] at this
  | some i =>
    obtain ⟨e, he, hv⟩ := findMountByPoint_some h
    exact Or.inr ⟨i, e, he, hv, by simp [he]⟩

theorem TableOk.resolveMount (h : TableOk t s) (hv : s.live v = true) :
    s.live (resolveMount t v) = true := by
  rcases resolveMount_cases t v with ⟨he, -⟩ | ⟨i, e, hi, -, he⟩
  · rw [he]
    exact hv
  · rw [he]
    exact (h.mount i e hi).2

def LiveOpt (s : State) (v : Option Addr) : Prop := ∀ a, v = some a → s.live a = true

/-- Where a path starts. -/
def startOf (t : Table Addr) (base : Option Addr) (p : Str) : Option Addr :=
  if p.head? = some slash then t.rootVnode else base

theorem startOf_live {p : Str} (hr : LiveOpt s t.rootVnode) (hb : LiveOpt s base) : LiveOpt s (startOf t base p) := by
  unfold startOf
  split
  · exact hr
  · exact hb

theorem walkFrom_cases (t : Table Addr) (base : Option Addr) (p : Str) (cs : List Str) (s : State) :
    (∃ e, (t.initialized = true → startOf t base p = none) ∧
        walkFrom (fsOps A g) t base (p.head? = some slash) cs s = (.error e, s)) ∨
      t.initialized = true ∧
        walkFrom (fsOps A g) t base (p.head? = some slash) cs s = walk (fsOps A g) t cs (startOf t base p) s := by
  unfold walkFrom startOf
  cases hi : t.initialized with
  | false => exact Or.inl ⟨_, fun h => (by cases h), rfl⟩
  | true =>
    by_cases habs : p.head? = some slash
    · cases hroot : t.rootVnode with
      | none => exact Or.inl ⟨.eNotFound, by simp [habs]⟩
      | some root => exact Or.inr ⟨rfl, by simp [habs]⟩
    · exact Or.inr ⟨rfl, by simp [habs]⟩

/-- Resolution removed nothing and its result is live. -/
def Reached (s : State) (x : Except Err (Option Addr) × State) : Prop :=
  Steady s x.2 ∧ ∀ v, x.1 = .ok v → LiveOpt x.2 v

variable {cur parent : Option Addr} {t' : Table Addr} {d : FileDescriptor Addr} {f' : FdTable Addr} {flags : BitVec 32} {r : Except Err (Fin maxFds)} {i : Fin maxFds}

theorem stepInto_reached (hc : Closed s) (ht : TableOk t s) (hv : LiveOpt s cur) (c : Str) :
    Reached s (stepInto (fsOps A g) t cur c s) := by
  have err : ∀ e : Err, Reached s (.error e, s) := fun e => ⟨Steady.refl s, fun v h => by cases h⟩
  unfold stepInto
  split
  · exact err _
  · cases cur with
    | none => exact err _
    | some v =>
      dsimp only
      split
      · exact err _
      · have hl := lookup_sound (A := A) (g := g) hc (hv v rfl) c
        split
        · rename_i e s1 h1
          rw [h1] at hl
          exact ⟨hl.1, fun v h => by cases h⟩
        · rename_i next s1 h1
          rw [h1] at hl
          refine ⟨hl.1, fun v h a ha => ?_⟩
          injection h with h
          rw [← h] at ha
          injection ha with ha
          rw [← ha]
          exact (ht.mono hl.1.grows).resolveMount (hl.2 next rfl)

theorem walk_reached (cs : List Str) (hc : Closed s) (ht : TableOk t s) (hv : LiveOpt s cur) :
    Reached s (walk (fsOps A g) t cs cur s) := by
  induction cs generalizing s cur with
  | nil => exact ⟨Steady.refl s, fun v h => by injection h with h; subst h; exact hv⟩
  | cons c cs ih =>
    have h1 := stepInto_reached (A := A) (g := g) hc ht hv c
    rw [walk]
    split
    · rename_i e s1 he
      rw [he] at h1
      exact ⟨h1.1, fun v h => by cases h⟩
    · rename_i next s1 he
      rw [he] at h1
      have h2 := ih (h1.1.closed hc) (ht.mono h1.1.grows) (h1.2 next rfl)
      exact ⟨h1.1.trans h2.1, h2.2⟩

theorem resolve_reached (hc : Closed s) (ht : TableOk t s) (hv : LiveOpt s base) (p : Str) :
    Reached s (resolve (fsOps A g) t base p s) := by
  rw [resolve_eq_walkFrom]
  rcases walkFrom_cases t base p (components p) s with ⟨e, -, he⟩ | ⟨-, he⟩
  · rw [he]
    exact ⟨Steady.refl s, fun v h => by cases h⟩
  · rw [he]
    exact walk_reached _ hc ht (startOf_live ht.root hv)

/-! ### Creating -/

theorem mkdirIn_steady (hc : Closed s) (hv : LiveOpt s parent) (name : Str) :
    Steady s (mkdirIn (fsOps A g) parent name s).2 := by
  unfold mkdirIn
  cases parent with
  | none => exact Steady.refl s
  | some a =>
    dsimp only
    split
    · exact Steady.refl s
    · exact mkdir_steady hc (hv a rfl) name

theorem LiveOpt.some {a : Addr} (h : s.live a = true) : LiveOpt s (some a) := by
  intro b hb
  injection hb with hb
  rw [← hb]
  exact h

theorem mkdirBelow_steady (hc : Closed s) (ht : TableOk t s) {start : Addr} (hv : s.live start = true) (p : Str) :
    Steady s (mkdirBelow (fsOps A g) t start p s).2 := by
  unfold mkdirBelow
  split
  · exact mkdirIn_steady hc (LiveOpt.some hv) p
  · split
    · exact Steady.refl s
    · rename_i sep _ _
      have hr := resolve_reached (A := A) (g := g) hc ht (LiveOpt.some hv) (p.take sep)
      split
      · rename_i e s1 h1
        rw [h1] at hr
        exact hr.1
      · rename_i parent s1 h1
        rw [h1] at hr
        exact hr.1.trans (mkdirIn_steady (hr.1.closed hc) (hr.2 parent rfl) _)

theorem mkdirCall_steady (hc : Closed s) (ht : TableOk t s) (hv : LiveOpt s base) (p : Str) :
    Steady s (mkdir (fsOps A g) t base p s).2 := by
  unfold mkdir
  cases base with
  | none => exact Steady.refl s
  | some b =>
    dsimp only
    split
    · exact Steady.refl s
    · split
      · split
        · exact Steady.refl s
        · rename_i root hroot
          split
          · exact Steady.refl s
          · exact mkdirBelow_steady hc ht (ht.root root hroot) _
      · exact mkdirBelow_steady hc ht (hv b rfl) p

theorem createIn_sound (hc : Closed s) (hv : LiveOpt s parent) (name : Str) :
    Sound s (createIn (fsOps A g) parent name s) := by
  cases parent with
  | none => exact ⟨Steady.refl s, fun a ha => by cases ha⟩
  | some a => exact create_sound hc (hv a rfl) name

theorem createAt_sound (hc : Closed s) (ht : TableOk t s) (hv : LiveOpt s base) (p : Str) :
    Sound s (createAt (fsOps A g) t base p s) := by
  unfold createAt
  split
  · exact createIn_sound hc hv p
  · split
    · exact ⟨Steady.refl s, fun a ha => by cases ha⟩
    · rename_i sep _ _
      have hr := resolve_reached (A := A) (g := g) hc ht hv (p.take sep)
      split
      · rename_i e s1 h1
        rw [h1] at hr
        exact ⟨hr.1, fun a ha => by cases ha⟩
      · rename_i parent s1 h1
        rw [h1] at hr
        have h2 := createIn_sound (A := A) (g := g) (hr.1.closed hc) (hr.2 parent rfl) (p.drop (sep + 1))
        exact ⟨hr.1.trans h2.1, h2.2⟩

/-! ### Mounting -/

/-- A new root: fresh, and nothing else but reference counts has changed. -/
structure NewRoot (s : State) (root : Addr) (s' : State) : Prop where
  fresh : s.live root = false
  live : s'.live = update s.live root true
  body : ∀ x, x ≠ root → s'.body x = s.body x
  steady : Steady s s'

/-- What mounting a file system leaves: a new root, or everything as it was. -/
def Mounted (s : State) : Except Err Addr × State → Prop
  | (.ok root, s') => NewRoot s root s'
  | (.error _, s') => Steady s s'

theorem ramfsMount_mounted : Mounted s (ramfsMount A s) := by
  unfold ramfsMount
  split
  · rename_i s1 h1
    exact (newVnode_refs h1).steady
  · rename_i a s1 h1
    obtain ⟨hf, hl, hst, hc⟩ := newVnode_some h1
    have ho : ∀ x, x ≠ a → s1.core x = s.core x := fun x hx => by rw [hc]; simp [hx]
    rcases hb : allocBlock A s1 with ⟨r, s2⟩
    cases r with
    | false => exact (Same.undo hf hl ho hst (allocBlock_same hb)).steady
    | true =>
      injection hb with _ hb
      subst hb
      refine ⟨hf, hl, fun x hx => body_of_core (ho x hx), Steady.of_new hf hl ?_ ho⟩
      change Wellborn s (s1.core a).privateData
      rw [hc, update_self]
      exact rfl

theorem overlayMount_mounted (hg : ∀ i a, rootLayers g i = some a → s.live a = true) :
    Mounted s (overlayMount A g s) := by
  unfold overlayMount
  rcases hb : allocBlock A s with ⟨r, s1⟩
  cases r with
  | false => exact (RefsOnly.alloc hb).steady
  | true =>
    have r2 := (RefsOnly.alloc hb).trans (refRoots_refs (rootLayers g) g.indices s1)
    dsimp only
    split
    · rename_i s3 h3
      exact ((r2.trans (newVnode_refs h3)).trans (unrefRoots_refs _ _ s3)).steady
    · rename_i vn s3 h3
      have hnew := newVnode_overlay h3
      refine ⟨r2.live ▸ hnew.fresh, r2.live ▸ hnew.live, fun x hx => ?_, r2.steady.trans (hnew.steady fun i a hi => ?_)⟩
      · rw [body_of_core (hnew.other x hx), r2.body]
      · rw [r2.live]
        exact hg i a hi

theorem mountFs_mounted (hg : ∀ i a, rootLayers g i = some a → s.live a = true) : Mounted s (mountFs A g fs s) := by
  cases fs with
  | ramfs => exact ramfsMount_mounted
  | overlayfs => exact overlayMount_mounted hg

theorem NewRoot.undo (h : NewRoot s root s₁) (hr : RefsOnly s₁ s₂) : Steady s (s₂.release root) := by
  refine Steady.of_body ?_ fun x hx => ?_
  · rw [live_release, hr.live, h.live, update_idem, ← h.fresh, update_eq_self]
  · have hne := ne_of_live hx h.fresh
    have hb : (s₂.release root).body x = s₂.body x := rfl
    rw [hb, hr.body, h.body x hne]

theorem unmountFs_steady (h : NewRoot s root s') :
    Steady s (unmountFs g fs root s') := by
  cases fs with
  | ramfs => exact h.undo (RefsOnly.refl s')
  | overlayfs =>
    change Steady s (overlayUnmount g root s')
    unfold overlayUnmount
    split
    · exact h.undo (RefsOnly.refl s')
    · exact h.undo (unrefRoots_refs _ _ s')

theorem setMountParent_steady (a target : Addr) : Steady s ((fsOps A g).setMountParent a target s) := by
  refine Steady.of_body rfl fun x _ => ?_
  exact body_of_update core_setVnode x

/-- The ways a call of `mount` ends. -/
inductive MountCase (t : Table Addr) (s : State) : Option Addr → Except Err Addr × Table Addr × State → Prop
  | failed {target : Option Addr} {e : Err} {s₁ : State} (hs : Steady s s₁) : MountCase t s target (.error e, t, s₁)
  | root {root : Addr} {s₁ : State} (hroot : t.rootVnode = none) (hs : Steady s s₁) (hlive : s₁.live root = true) :
      MountCase t s none (.ok root, { t with rootVnode := some root }, s₁)
  | point {target root : Addr} {i : Fin maxMounts} {s₁ : State} (hinit : t.initialized = true)
      (hfree : findFreeMountEntry t = some i) (hfresh : s.live root = false) (hs : Steady s s₁)
      (hlive : s₁.live root = true) : MountCase t s (some target)
        (.ok root, { t with mountTable := update t.mountTable i (some ⟨target, root⟩) }, s₁)

theorem mountCall_cases (hg : ∀ i a, rootLayers g i = some a → s.live a = true) {target : Option Addr}
    {x : Except Err Addr × Table Addr × State}
    (h : mount (fsOps A g) (mountFs A g fs) (unmountFs g fs) target t s = x) : MountCase t s target x := by
  subst h
  unfold mount
  split
  · exact .failed (Steady.refl s)
  · rename_i hi
    have hm : Mounted s (mountFs A g fs s) := mountFs_mounted hg
    split
    · rename_i e s1 h1
      rw [h1] at hm
      exact .failed hm
    · rename_i root s1 h1
      rw [h1] at hm
      have hlive : s1.live root = true := by rw [hm.live]; simp
      cases target with
      | none =>
        dsimp only
        split
        · exact .failed (unmountFs_steady hm)
        · rename_i hroot
          exact .root (by simpa using hroot) hm.steady hlive
      | some target =>
        dsimp only
        split
        · exact .failed (unmountFs_steady hm)
        · rename_i i hfree
          exact .point (by simpa using hi) hfree hm.fresh (hm.steady.trans (setMountParent_steady root target)) hlive

/-! ### Whole calls -/

/-- The used descriptors of a table refer to live vnodes. -/
def FdsLive (s : State) (f : FdTable Addr) : Prop :=
  ∀ i a, (f i).used = true → (f i).vnode = some a → s.live a = true

theorem FdsLive.mono (h : FdsLive s f) (hs : Steady s s') : FdsLive s' f :=
  fun i a hu hv => hs.grows.live a (h i a hu hv)

/-- Everything the kernel can still follow is live. -/
structure Intact (g : Layers) (y : Sys) : Prop where
  closed : Closed y.state
  table : TableOk y.table y.state
  fds : ∀ q, FdsLive y.state (y.fds q)
  layers : ∀ i a, rootLayers g i = some a → y.state.live a = true

/-- The vnodes handed to the call are live, and the call is not one that removes. -/
def Proper (y : Sys) : Call → Prop
  | .resolve base _ => LiveOpt y.state base
  | .mkdir base _ => LiveOpt y.state base
  | .openPath _ base _ _ => LiveOpt y.state base
  | .mount _ target => LiveOpt y.state target
  | .setRoot root => y.state.live root = true
  | .nodeLookup dir _ => y.state.live dir = true
  | .nodeCreate dir _ => y.state.live dir = true
  | .nodeMkdir dir _ => y.state.live dir = true
  | .nodeRmdir _ _ => False
  | .nodeUnlink _ _ => False
  | _ => True

theorem Intact.of_steady (h : Intact g y) (hs : Steady y.state s') :
    Intact g { y with state := s' } :=
  ⟨hs.closed h.closed, h.table.mono hs.grows, fun q => (h.fds q).mono hs,
    fun i a hi => hs.grows.live a (h.layers i a hi)⟩

theorem Intact.of_fds (h : Intact g y) (q : ℕ)
    (hf : FdsLive y.state f) : Intact g { y with fds := update y.fds q f } := by
  refine ⟨h.closed, h.table, fun p => ?_, h.layers⟩
  by_cases hp : p = q
  · subst hp
    simpa using hf
  · simpa [hp] using h.fds p

theorem Intact.of_both (h : Intact g y) (q : ℕ) (hs : Steady y.state s')
    (hf : FdsLive s' f) : Intact g { y with fds := update y.fds q f, state := s' } :=
  Intact.of_fds (h.of_steady hs) q hf

/-- A descriptor table in which only entry `i` differs, with a live vnode or none. -/
theorem FdsLive.update (hf : FdsLive s f) (i : Fin maxFds)
    (hd : d.used = true → LiveOpt s d.vnode) : FdsLive s (update f i d) := by
  intro j a hu hv
  by_cases hj : j = i
  · subst hj
    rw [update_self] at hu hv
    exact hd hu a hv
  · rw [update_of_ne hj] at hu hv
    exact hf j a hu hv

theorem refOpt_steady (v : Option Addr) : Steady s ((fsOps A g).refOpt v s) := by
  cases v with
  | none => exact Steady.refl s
  | some a => exact (RefsOnly.ref a s).steady

theorem unrefOpt_steady (v : Option Addr) : Steady s ((fsOps A g).unrefOpt v s) := by
  cases v with
  | none => exact Steady.refl s
  | some a => exact (RefsOnly.unref a s).steady

/-- A call on descriptors that removed nothing and left the descriptors of the table live. -/
def FdsKept (s : State) (x : FdTable Addr × State) : Prop := Steady s x.2 ∧ FdsLive x.2 x.1

theorem FdsKept.of_steady {x : FdTable Addr × State} (h : FdsKept s₁ x) (hs : Steady s s₁) : FdsKept s x :=
  ⟨hs.trans h.1, h.2⟩

theorem installFd_kept {v : Option Addr} (hv : LiveOpt s v) (hf : FdsLive s f) :
    FdsKept s (installFd (fsOps A g) v flags f s).2 := by
  unfold installFd
  split
  · exact ⟨Steady.refl s, hf⟩
  · rename_i fd _
    have hs : Steady s ((fsOps A g).refOpt v s) := refOpt_steady v
    exact ⟨hs, (hf.mono hs).update fd fun _ a ha => hs.grows.live a (hv a ha)⟩

theorem openPath_kept (hc : Closed s) (ht : TableOk t s) (hb : LiveOpt s base) (p : Str) (hf : FdsLive s f) :
    FdsKept s (openPath (fsOps A g) t base p flags f s).2 := by
  unfold openPath
  split
  · exact ⟨Steady.refl s, hf⟩
  · have hr := resolve_reached (A := A) (g := g) hc ht hb p
    split
    · rename_i v s1 h1
      rw [h1] at hr
      exact (installFd_kept (hr.2 v rfl) (hf.mono hr.1)).of_steady hr.1
    · rename_i e s1 h1
      rw [h1] at hr
      split
      · have hcr := createAt_sound (A := A) (g := g) (hr.1.closed hc) (ht.mono hr.1.grows)
          (fun a ha => hr.1.grows.live a (hb a ha)) p
        split
        · rename_i e s2 h2
          rw [h2] at hcr
          have hst := hr.1.trans hcr.1
          exact ⟨hst, hf.mono hst⟩
        · rename_i v s2 h2
          rw [h2] at hcr
          have hst := hr.1.trans hcr.1
          exact (installFd_kept (LiveOpt.some (hcr.2 v rfl)) (hf.mono hst)).of_steady hst
      · exact ⟨hr.1, hf.mono hr.1⟩

theorem descriptor_used {fd : ℤ} (h : descriptor f fd = some i) :
    (f i).used = true := by
  unfold descriptor at h
  split at h
  · dsimp only at h
    split at h
    · rename_i hu
      injection h with h
      rw [← h]
      exact hu
    · cases h
  · cases h

theorem FdsLive.move (hf : FdsLive s f) (hv : d.vnode = (f i).vnode) (hu : d.used = true → (f i).used = true) :
    FdsLive s (Function.update f i d) :=
  hf.update i fun h a ha => hf i a (hu h) (hv ▸ ha)

theorem close_kept (hf : FdsLive s f) (fd : ℤ) : FdsKept s (Vfs.close (fsOps A g) fd f s).2 := by
  unfold Vfs.close
  split
  · exact ⟨Steady.refl s, hf⟩
  · rename_i i _
    have hs := unrefOpt_steady (A := A) (g := g) (s := s) (f i).vnode
    exact ⟨hs, (hf.mono hs).move rfl fun h => by cases h⟩

theorem OnFd.kept {op : Addr → Fin maxFds → State} {fd : ℤ} {x : FdTable Addr × State} (h : OnFd op fd f s x)
    (hf : FdsLive s f) (hop : ∀ v i, Steady s (op v i)) : FdsKept s x := by
  have hs : Steady s x.2 := by
    rcases h.state with hx | ⟨i, v, -, -, hx⟩
    · rw [hx]
      exact Steady.refl s
    · rw [hx]
      exact hop v i
  refine ⟨hs, ?_⟩
  rcases h.fds with hx | ⟨i, k, -, hx⟩
  · rw [hx]
    exact hf.mono hs
  · rw [hx]
    exact (hf.mono hs).move rfl id

theorem TableOk.insert (h : TableOk t s) (i : Fin maxMounts) {point : Addr} (hp : s.live point = true)
    (hr : s.live root = true) :
    TableOk { t with mountTable := update t.mountTable i (some ⟨point, root⟩) } s := by
  refine ⟨fun j e he => ?_, h.root⟩
  dsimp only at he
  by_cases hj : j = i
  · subst hj
    rw [update_self] at he
    injection he with he
    rw [← he]
    exact ⟨hp, hr⟩
  · rw [update_of_ne hj] at he
    exact h.mount j e he

theorem MountCase.spec {target : Option Addr} {x : Except Err Addr × Table Addr × State} (h : MountCase t s target x)
    (ht : TableOk t s) (hv : LiveOpt s target) : Steady s x.2.2 ∧ TableOk x.2.1 x.2.2 := by
  cases h with
  | failed hs => exact ⟨hs, ht.mono hs.grows⟩
  | root _ hs hlive =>
    refine ⟨hs, (ht.mono hs.grows).mount, fun r hr => ?_⟩
    injection hr with hr
    rw [← hr]
    exact hlive
  | point _ _ _ hs hlive => exact ⟨hs, (ht.mono hs.grows).insert _ (hs.grows.live _ (hv _ rfl)) hlive⟩

theorem unmountCall_ok (h : TableOk t s) (root : Addr) : TableOk (unmount root t).2 s := by
  unfold unmount
  split
  · exact h
  · split
    · exact h
    · rename_i i _
      refine ⟨fun j e he => ?_, fun r hr => ?_⟩
      · by_cases hj : j = i
        · subst hj
          simp at he
        · simp only [update_of_ne hj] at he
          exact h.mount j e he
      · split at hr
        · cases hr
        · exact h.root r hr

theorem setRootCall_ok (h : TableOk t s) (hr : s.live root = true) : TableOk (setRoot root t).2 s := by
  unfold setRoot
  split
  · exact h
  · refine ⟨h.mount, fun r hr' => ?_⟩
    injection hr' with hr'
    rw [← hr']
    exact hr

theorem spawn_spec (h : Intact g y) (path : Str) (child : Option ℕ) :
    Intact g (spawn A g path child y) ∧ Steady y.state (spawn A g path child y).state := by
  have hnone : LiveOpt y.state none := fun a ha => by cases ha
  have hr := resolve_reached (A := A) (g := g) h.closed h.table hnone path
  unfold spawn
  split
  · rename_i e s1 h1
    rw [h1] at hr
    exact ⟨h.of_steady hr.1, hr.1⟩
  · rename_i file s1 h1
    rw [h1] at hr
    have hst := hr.1.trans (unrefOpt_steady (A := A) (g := g) file)
    cases child with
    | none => exact ⟨h.of_steady hst, hst⟩
    | some c =>
      have h2 := (h.of_steady hst).of_fds c (f := noFds) fun i a hu _ => by cases hu
      exact ⟨⟨h2.closed, h2.table, h2.fds, h2.layers⟩, hst⟩

/-- A call that removes nothing keeps everything the kernel can follow. -/
theorem exec_intact {c : Call} (h : Intact g y) (hp : Proper y c) :
    Intact g (exec A g c y) ∧ Steady y.state (exec A g c y).state := by
  have state : ∀ s', Steady y.state s' → Intact g { y with state := s' } ∧ Steady y.state s' :=
    fun s' hs => ⟨h.of_steady hs, hs⟩
  have both : ∀ (q : ℕ) (x : FdTable Addr × State), FdsKept y.state x →
      Intact g { y with fds := update y.fds q x.1, state := x.2 } ∧ Steady y.state x.2 :=
    fun q x hs => ⟨h.of_both q hs.1 hs.2, hs.1⟩
  cases c with
  | resolve base path => exact state _ (resolve_reached h.closed h.table hp path).1
  | mkdir base path => exact state _ (mkdirCall_steady h.closed h.table hp path)
  | openPath q base path flags => exact both q _ (openPath_kept h.closed h.table hp path (h.fds q))
  | close q fd => exact both q _ (close_kept (h.fds q) fd)
  | read q fd buf size => exact both q _ (OnFd.kept (read_onFd buf size) (h.fds q) fun _ _ => (read_refs _ _ _ _).steady)
  | write q fd buf size => exact both q _ (OnFd.kept (write_onFd buf size) (h.fds q) fun _ _ => write_steady _ _ _ _)
  | readdir q fd => exact both q _ (OnFd.kept readdir_onFd (h.fds q) fun _ _ => readdir_steady _ _)
  | stat q fd => exact state _ (OnFd.kept stat_onFd (h.fds q) fun _ _ => (stat_refs _).steady).1
  | seek q fd offset whence => exact both q _ (OnFd.kept (seek_onFd offset whence) (h.fds q) fun _ _ => (stat_refs _).steady)
  | mount fs target =>
    obtain ⟨hst, htb⟩ := (mountCall_cases h.layers rfl).spec h.table hp
    have h2 := h.of_steady hst
    exact ⟨⟨h2.closed, htb, h2.fds, h2.layers⟩, hst⟩
  | unmount root => exact ⟨⟨h.closed, unmountCall_ok h.table root, h.fds, h.layers⟩, Steady.refl _⟩
  | setRoot root => exact ⟨⟨h.closed, setRootCall_ok h.table hp, h.fds, h.layers⟩, Steady.refl _⟩
  | nodeLookup dir name => exact state _ (lookup_sound h.closed hp name).1
  | nodeCreate dir name => exact state _ (create_sound h.closed hp name).1
  | nodeMkdir dir name => exact state _ (mkdir_steady h.closed hp name)
  | nodeRmdir dir name => exact hp.elim
  | nodeUnlink dir name => exact hp.elim
  | nodeRead node offset buf size => exact state _ (read_refs _ _ _ _).steady
  | nodeWrite node offset buf size => exact state _ (write_steady _ _ _ _)
  | nodeReaddir dir offset => exact state _ (readdir_steady _ _)
  | spawn path child => exact spawn_spec h path child
  | fork parent child =>
    have h2 := h.of_fds child (h.fds parent)
    exact ⟨⟨h2.closed, h2.table, h2.fds, h2.layers⟩, Steady.refl _⟩
  | exit q => exact ⟨h, Steady.refl _⟩

/-! ### The small system -/

theorem rootOnly_intact : Intact noLayers rootOnly := by
  have hes : ∀ a, rootOnly.state.entries a = some [] := fun _ => rfl
  have hov : ∀ a, rootOnly.state.overlay? a = none := fun _ => rfl
  refine ⟨⟨fun d es e _ h he => ?_, fun v o i a _ h => ?_⟩, ⟨fun i e he => (by cases he), fun r hr => ?_⟩,
    fun q i a hu => (by cases hu), fun i a hi => ?_⟩
  · rw [hes] at h
    injection h with h
    rw [← h] at he
    cases he
  · rw [hov] at h
    cases h
  · injection hr with hr
    rw [← hr]
    rfl
  · unfold rootLayers noLayers at hi
    split at hi <;> cases hi

/-- `open("f", O_CREAT)` in its root: vnode 2 has two references from the tree and one from
descriptor 0. -/
theorem openPath_f : openPath (fsOps bump noLayers) rootOnly.table (some 1) [102] oCreat noFds rootOnly.state =
    (.ok 0, update noFds 0 ⟨some 2, 0, oCreat, true⟩,
      vnodeRef 2 (ramfsCreate bump 1 [102] rootOnly.state).2) := by
  have hres : resolve (fsOps bump noLayers) rootOnly.table (some 1) [102] rootOnly.state =
      (.error .eNotFound, rootOnly.state) := by
    rw [resolve_eq_walkFrom]
    rfl
  unfold openPath
  rw [hres]
  rfl

end Tori.Fs
