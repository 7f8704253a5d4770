import Tori.Proofs.FsCreate

/-! Mounts and paths. A mount on a directory that a path reaches through RamFS directories is seen
by the path from then on, and taking it off brings the directory back. -/

namespace Tori.Fs

open Vfs State Function

variable {s s' : State} {A : Allocator} {g : Layers} {t t' : Table Addr}

variable {v r start : Addr} {i : Fin maxMounts} {us : List Addr} {base : Option Addr} {p : Str} {y : Sys}

/-! ### The mount table -/

theorem resolveMount_congr {u : Addr}
    (h : ∀ i e, e.mountPoint = u → (t.mountTable i = some e ↔ t'.mountTable i = some e)) :
    resolveMount t' u = resolveMount t u := by
  have hany : ∀ i, (t'.mountTable i).any (fun e => e.mountPoint = u) =
      (t.mountTable i).any fun e => e.mountPoint = u := by
    intro i
    rw [Bool.eq_iff_iff]
    simp only [Option.any_eq_true, decide_eq_true_eq]
    constructor
    · rintro ⟨e, he, hu⟩
      exact ⟨e, (h i e hu).mpr he, hu⟩
    · rintro ⟨e, he, hu⟩
      exact ⟨e, (h i e hu).mp he, hu⟩
  have hfind : findMountByPoint t' u = findMountByPoint t u := by
    unfold findMountByPoint
    congr 1
    funext i
    exact hany i
  unfold resolveMount
  rw [hfind]
  cases hi : findMountByPoint t u with
  | none => rfl
  | some i =>
    obtain ⟨e, he, hu⟩ := findMountByPoint_some hi
    have he' := (h i e hu).mp he
    simp [he, he']

/-- A change of entry `i` does not touch an entry that it neither removes nor makes. -/
theorem update_entry {m : Fin maxMounts → Option (MountEntry Addr)} {x : Option (MountEntry Addr)} {j : Fin maxMounts}
    {e : MountEntry Addr} (hold : m i ≠ some e) (hnew : x ≠ some e) : m j = some e ↔ update m i x j = some e := by
  by_cases hj : j = i
  · subst hj
    rw [update_self]
    exact ⟨fun h => absurd h hold, fun h => absurd h hnew⟩
  · rw [update_of_ne hj]

theorem resolveMount_only (hi : t.mountTable i = some ⟨v, r⟩)
    (honly : ∀ j e, t.mountTable j = some e → e.mountPoint = v → j = i) : resolveMount t v = r := by
  rcases resolveMount_cases t v with ⟨-, hno⟩ | ⟨j, e, hj, hp, he⟩
  · exact absurd rfl (hno i _ hi)
  · rw [he]
    rw [honly j e hj hp, hi] at hj
    injection hj with hj
    rw [← hj]

theorem resolveMount_free (h : ∀ i e, t.mountTable i = some e → e.mountPoint ≠ v) :
    resolveMount t v = v := by
  rcases resolveMount_cases t v with ⟨he, -⟩ | ⟨j, e, hj, hp, -⟩
  · exact he
  · exact absurd hp (h j e hj)

theorem findFree_none (h : findFreeMountEntry t = some i) : t.mountTable i = none := by
  have := List.find?_some h
  simpa using this

variable {root w : Addr} {cs : List Str} {fs : FsType}

theorem findRoot_some (h : findMountByRoot t root = some i) :
    ∃ e, t.mountTable i = some e ∧ e.mountedRoot = root := by
  have hi := List.find?_some h
  cases he : t.mountTable i with
  | none => simp [he] at hi
  | some e => exact ⟨e, rfl, by simpa [he] using hi⟩

theorem unmount_found (hi : t.initialized = true)
    (h : findMountByRoot t root = some i) : unmount root t = (.ok (), { t with
      mountTable := update t.mountTable i none
      rootVnode := if t.rootVnode = some root then none else t.rootVnode }) := by
  simp [unmount, hi, h]

/-! ### Paths with the vnodes they look up -/

/-- `Leads`, with the list of the vnodes that the lookups return. -/
inductive Trace (t : Table Addr) (s : State) : Addr → List Str → List Addr → Addr → Prop
  | nil (v : Addr) : Trace t s v [] [] v
  | cons {v w : Addr} {c : Str} {cs : List Str} {us : List Addr} {es : List RamfsEntry} {e : RamfsEntry}
      (hl : s.live v = true) (hty : (s.vnodes v).type = .directory) (hes : s.entries v = some es)
      (hf : es.find? (fun e => e.name = c) = some e) (hlen : c.length ≤ 255)
      (h : Trace t s (resolveMount t e.vnode) cs us w) : Trace t s v (c :: cs) (e.vnode :: us) w

theorem Trace.leads (h : Trace t s v cs us w) :
    Leads t s v cs w := by
  induction h with
  | nil v => exact .nil v
  | cons hl hty hes hf hlen _ ih => exact .cons hl hty hes hf hlen ih

/-- The same path under another mount table that agrees on what the path looks up. -/
theorem Trace.move (h : Trace t s v cs us w) (hg : Grows s s')
    (hm : ∀ u ∈ us, resolveMount t' u = resolveMount t u) : Trace t' s' v cs us w := by
  induction h with
  | nil v => exact .nil v
  | cons hl hty hes hf hlen _ ih =>
    obtain ⟨more, hmore⟩ := hg.entries _ _ hl hes
    refine .cons (hg.live _ hl) ((hg.type _ hl).trans hty) hmore (by rw [List.find?_append, hf]; rfl) hlen ?_
    rw [hm _ List.mem_cons_self]
    exact ih fun u hu => hm u (List.mem_cons_of_mem _ hu)

theorem startOf_root (h : startOf t base p = some start) (habs : p.head? = some slash) : t.rootVnode = some start := by
  rw [← h, startOf, if_pos habs]

theorem startOf_congr (h : startOf t base p = some start) (hroot : p.head? = some slash → t'.rootVnode = some start) :
    startOf t' base p = some start := by
  unfold startOf at h ⊢
  split at h
  · rename_i habs
    rw [if_pos habs, hroot habs]
  · rename_i hrel
    rw [if_neg hrel, h]

/-- `p` reaches `v` through RamFS directories, by lookups that return `us` and then `v`, on which
nothing is mounted yet. -/
structure MountPath (t : Table Addr) (s : State) (base : Option Addr) (p : Str) (start : Addr) (us : List Addr)
    (v : Addr) : Prop where
  origin : startOf t base p = some start
  path : ∃ init c d es e, components p = init ++ [c] ∧ Trace t s start init us d ∧ s.live d = true ∧
    (s.vnodes d).type = .directory ∧ s.entries d = some es ∧ es.find? (fun e => e.name = c) = some e ∧
    c.length ≤ 255 ∧ e.vnode = v
  free : ∀ i e, t.mountTable i = some e → e.mountPoint ≠ v
  once : v ∉ us

/-- What the path resolves to later, under a table that agrees on the way. -/
theorem MountPath.resolve
    (h : MountPath t s base p start us v) (hg : Grows s s') (hi : t'.initialized = true)
    (hstart : startOf t' base p = some start) (hm : ∀ u ∈ us, resolveMount t' u = resolveMount t u) :
    Vfs.resolve (fsOps A g) t' base p s' = (.ok (some (resolveMount t' v)), s') := by
  obtain ⟨init, c, d, es, e, hcomp, htr, hd, hty, hes, hf, hlen, rfl⟩ := h.path
  obtain ⟨more, hmore⟩ := hg.entries _ _ hd hes
  have hlast : Leads t' s' d [c] (resolveMount t' e.vnode) :=
    .cons (hg.live _ hd) ((hg.type _ hd).trans hty) hmore (by rw [List.find?_append, hf]; rfl) hlen (.nil _)
  rw [resolve_start hi hstart, hcomp]
  exact ((htr.move hg hm).leads.append hlast).walk

/-! ### Runs that leave the path alone -/

/-- Calls that do not mount on, unmount from or re-root the path itself. -/
def Undisturbed (p : Str) (start : Addr) (us : List Addr) (v : Addr) (y : Sys) (c : Call) : Prop :=
  Proper y c ∧ match c with
    | .mount _ target => ∀ x, target = some x → x ∉ v :: us
    | .unmount root => (∀ i e, y.table.mountTable i = some e → e.mountedRoot = root → e.mountPoint ∉ v :: us) ∧
        (p.head? = some slash → y.table.rootVnode ≠ some root)
    | .setRoot root => p.head? = some slash → root = start
    | _ => True

/-- The state of affairs between the mount and the unmount; `t` and `s` are those before it. -/
structure Covered (g : Layers) (t : Table Addr) (s : State) (base : Option Addr) (p : Str) (start : Addr)
    (us : List Addr) (v r : Addr) (y : Sys) : Prop where
  intact : Intact g y
  grows : Grows s y.state
  init : y.table.initialized = true
  origin : startOf y.table base p = some start
  way : ∀ u ∈ us, resolveMount y.table u = resolveMount t u
  live : y.state.live r = true
  entry : ∃ i, y.table.mountTable i = some ⟨v, r⟩ ∧
    ∀ j e, y.table.mountTable j = some e → e.mountPoint = v ∨ e.mountedRoot = r → j = i

theorem Covered.resolve
    (hp : MountPath t s base p start us v) (h : Covered g t s base p start us v r y) :
    (Vfs.resolve (fsOps A g) y.table base p y.state).1 = .ok (some r) := by
  obtain ⟨i, hi, honly⟩ := h.entry
  rw [hp.resolve h.grows h.init h.origin h.way, resolveMount_only hi fun j e hj hv => honly j e hj (Or.inl hv)]

/-- A change of the tables that keeps the root and every entry on the path or of `r`. -/
theorem Covered.retable {y' : Sys} (h : Covered g t s base p start us v r y) (hi : Intact g y')
    (hgrow : Grows y.state y'.state) (hinit : y'.table.initialized = true)
    (hroot : p.head? = some slash → y'.table.rootVnode = some start)
    (hkeep : ∀ j e, e.mountPoint ∈ v :: us ∨ e.mountedRoot = r →
      (y.table.mountTable j = some e ↔ y'.table.mountTable j = some e)) : Covered g t s base p start us v r y' := by
  obtain ⟨i, hentry, honly⟩ := h.entry
  refine ⟨hi, h.grows.trans hgrow, hinit, startOf_congr h.origin hroot, fun u hu => ?_, hgrow.live r h.live, i,
    (hkeep i _ (Or.inl List.mem_cons_self)).mp hentry, fun j e hj hv => ?_⟩
  · rw [← h.way u hu]
    exact resolveMount_congr fun j e he => hkeep j e (Or.inl (he ▸ List.mem_cons_of_mem v hu))
  · have hon : e.mountPoint ∈ v :: us ∨ e.mountedRoot = r := hv.imp_left fun hv => by rw [hv]; exact List.mem_cons_self
    exact honly j e ((hkeep j e hon).mpr hj) hv

theorem Covered.step {c : Call}
    (h : Covered g t s base p start us v r y) (hc : Undisturbed p start us v y c) :
    Covered g t s base p start us v r (exec A g c y) := by
  obtain ⟨hi, hst⟩ := exec_intact h.intact hc.1
  have horigin := startOf_root h.origin
  have same : (exec A g c y).table = y.table → Covered g t s base p start us v r (exec A g c y) := fun ht =>
    h.retable hi hst.grows (ht ▸ h.init) (ht ▸ horigin) fun j e _ => by rw [ht]
  cases c with
  | mount fs target =>
    rcases hx : mount (fsOps A g) (mountFs A g fs) (unmountFs g fs) target y.table y.state with ⟨res, t1, s1⟩
    have ht : (exec A g (.mount fs target) y).table = t1 := by
      dsimp only [exec]
      rw [hx]
    cases mountCall_cases h.intact.layers hx with
    | failed => exact same ht
    | root hroot =>
      refine h.retable hi hst.grows (by rw [ht]; exact h.init) (fun habs => ?_) fun j e _ => by rw [ht]
      rw [horigin habs] at hroot
      cases hroot
    | point _ hfree hfresh =>
      refine h.retable hi hst.grows (by rw [ht]; exact h.init) (by rw [ht]; exact horigin) fun j e hon => ?_
      rw [ht]
      refine update_entry (fun hold => ?_) fun hnew => ?_
      · rw [findFree_none hfree] at hold
        cases hold
      · injection hnew with hnew
        subst hnew
        rcases hon with hon | rfl
        · exact hc.2 _ rfl hon
        · rw [h.live] at hfresh
          cases hfresh
  | unmount root =>
    cases hf : findMountByRoot y.table root with
    | none =>
      refine same ?_
      change (unmount root y.table).2 = y.table
      simp [unmount, h.init, hf]
    | some k =>
      have ht : (exec A g (.unmount root) y).table = { y.table with
          mountTable := update y.table.mountTable k none
          rootVnode := if y.table.rootVnode = some root then none else y.table.rootVnode } := by
        change (unmount root y.table).2 = _
        rw [unmount_found h.init hf]
      obtain ⟨e', he, her⟩ := findRoot_some hf
      refine h.retable hi hst.grows (by rw [ht]; exact h.init) (fun habs => ?_) fun j e hon => ?_
      · rw [ht]
        rw [if_neg (hc.2.2 habs), horigin habs]
      · rw [ht]
        refine update_entry (fun hold => ?_) fun hnew => by cases hnew
        have hout := hc.2.1 k e' he her
        rw [he] at hold
        injection hold with hold
        subst hold
        rcases hon with hon | hon
        · exact hout hon
        · obtain ⟨i, hentry, honly⟩ := h.entry
          rw [honly k e' he (Or.inr hon), hentry] at he
          injection he with he
          rw [← he] at hout
          exact hout List.mem_cons_self
  | setRoot root =>
    have ht : (exec A g (.setRoot root) y).table = { y.table with rootVnode := some root } := by
      change (setRoot root y.table).2 = _
      simp [setRoot, h.init]
    refine h.retable hi hst.grows (by rw [ht]; exact h.init) (fun habs => ?_) fun j e _ => by rw [ht]
    rw [ht, hc.2 habs]
  | spawn path child =>
    refine same ?_
    change (spawn A g path child y).table = y.table
    unfold spawn
    split
    · rfl
    · cases child <;> rfl
  | resolve _ _ | mkdir _ _ | openPath _ _ _ _ | close _ _ | read _ _ _ _ | write _ _ _ _ | readdir _ _ | stat _ _
  | seek _ _ _ _ | nodeLookup _ _ | nodeCreate _ _ | nodeMkdir _ _ | nodeRmdir _ _ | nodeUnlink _ _
  | nodeRead _ _ _ _ | nodeWrite _ _ _ _ | nodeReaddir _ _ | fork _ _ | exit _ => exact same rfl

theorem MountPath.live (hc : Closed s)
    (h : MountPath t s base p start us v) : s.live v = true := by
  obtain ⟨init, c, d, es, e, -, -, hd, -, hes, hf, -, rfl⟩ := h.path
  exact hc.entry d es e hd hes (List.mem_of_find?_eq_some hf)

theorem Covered.mounted
    {t₁ : Table Addr} {s₁ : State} (hy : Intact g y)
    (hp : MountPath y.table y.state base p start us v)
    (hm : mount (fsOps A g) (mountFs A g fs) (unmountFs g fs) (some v) y.table y.state = (.ok r, t₁, s₁)) :
    Covered g y.table y.state base p start us v r { y with table := t₁, state := s₁ } := by
  have hi : Intact g { y with table := t₁, state := s₁ } := by
    have h := (exec_intact (A := A) (c := .mount fs (some v)) hy (LiveOpt.some (hp.live hy.closed))).1
    dsimp only [exec] at h
    rw [hm] at h
    exact h
  cases mountCall_cases hy.layers hm with | point hinit hfree hfresh hst hlive =>
  refine ⟨hi, hst.grows, hinit, hp.origin, fun u hu => ?_, hlive, _, update_self _ _ _, fun j e hj hv => ?_⟩
  · refine resolveMount_congr fun j e he => update_entry (fun hold => ?_) fun hnew => ?_
    · rw [findFree_none hfree] at hold
      cases hold
    · injection hnew with hnew
      rw [← hnew] at he
      have hvu : v = u := he
      exact hp.once (hvu ▸ hu)
  · dsimp only at hj
    by_contra hji
    rw [update_of_ne hji] at hj
    rcases hv with hv | hv
    · exact hp.free j e hj hv
    · have hl := (hy.table.mount j e hj).2
      rw [hv, hfresh] at hl
      cases hl

/-- Taking the mount off brings the directory back. -/
theorem Covered.unmount
    (hp : MountPath t s base p start us v) (hne : start ≠ r) (h : Covered g t s base p start us v r y) :
    (Vfs.unmount r y.table).1 = .ok () ∧
      (Vfs.resolve (fsOps A g) (Vfs.unmount r y.table).2 base p y.state).1 = .ok (some v) := by
  obtain ⟨i, hentry, honly⟩ := h.entry
  have hfound : findMountByRoot y.table r = some i := by
    cases hf : findMountByRoot y.table r with
    | none =>
      have := List.find?_eq_none.mp hf i (List.mem_finRange i)
      simp [hentry] at this
    | some k =>
      obtain ⟨e, he, her⟩ := findRoot_some hf
      rw [honly k e he (Or.inr her)]
  let t₂ : Table Addr := { y.table with
    mountTable := update y.table.mountTable i none
    rootVnode := if y.table.rootVnode = some r then none else y.table.rootVnode }
  have ht : Vfs.unmount r y.table = (.ok (), t₂) := unmount_found h.init hfound
  have horigin : startOf t₂ base p = some start := by
    refine startOf_congr h.origin fun habs => ?_
    change (if y.table.rootVnode = some r then none else y.table.rootVnode) = some start
    rw [startOf_root h.origin habs, if_neg fun heq => hne (Option.some.inj heq)]
  have hway : ∀ u ∈ us, resolveMount t₂ u = resolveMount t u := by
    intro u hu
    rw [← h.way u hu]
    refine resolveMount_congr fun j e he => update_entry (fun hold => ?_) fun hnew => by cases hnew
    rw [hentry] at hold
    injection hold with hold
    rw [← hold] at he
    have hvu : v = u := he
    exact hp.once (hvu ▸ hu)
  have hfree : resolveMount t₂ v = v := by
    refine resolveMount_free fun j e hj hv => ?_
    by_cases hji : j = i
    · rw [hji, show t₂.mountTable i = none from update_self _ _ _] at hj
      cases hj
    · rw [show t₂.mountTable j = y.table.mountTable j from update_of_ne hji _ _] at hj
      exact hji (honly j e hj (Or.inl hv))
  have hinit : t₂.initialized = true := h.init
  rw [ht]
  refine ⟨rfl, ?_⟩
  rw [hp.resolve h.grows hinit horigin hway, hfree]

/-- A mount on a directory reached through RamFS directories is visible through the path in every
state of every run that leaves the path alone, until it is taken off. -/
theorem mounts_visible {base : Option Addr} {p : Str} {start : Addr} {us : List Addr} {v r : Addr} {y y' : Sys}
    {fs : FsType} {t₁ : Table Addr} {s₁ : State} (hy : Intact g y)
    (hp : MountPath y.table y.state base p start us v) (hb : LiveOpt y.state base)
    (hm : mount (fsOps A g) (mountFs A g fs) (unmountFs g fs) (some v) y.table y.state = (.ok r, t₁, s₁))
    (hrun : Run A g (Undisturbed p start us v) { y with table := t₁, state := s₁ } y') :
    (resolve (fsOps A g) y.table base p y.state).1 = .ok (some v) ∧
      (resolve (fsOps A g) y'.table base p y'.state).1 = .ok (some r) ∧
      (unmount r y'.table).1 = .ok () ∧
      (resolve (fsOps A g) (unmount r y'.table).2 base p y'.state).1 = .ok (some v) := by
  cases mountCall_cases hy.layers hm with | point hinit _ hfresh _ _ =>
  have hbefore : (resolve (fsOps A g) y.table base p y.state).1 = .ok (some v) := by
    rw [hp.resolve (Steady.refl y.state).grows hinit hp.origin fun _ _ => rfl, resolveMount_free hp.free]
  have hne : start ≠ r := by
    rintro rfl
    rw [startOf_live hy.table.root hb start hp.origin] at hfresh
    cases hfresh
  have hcov : Covered g y.table y.state base p start us v r y' :=
    hrun.invariant (Covered.mounted hy hp hm) fun _ _ h hc => h.step hc
  exact ⟨hbefore, hcov.resolve hp, hcov.unmount hp hne⟩

/-- The small system with a directory `a`, vnode 2. -/
def sysA : Sys := exec bump noLayers (.nodeMkdir 1 [97]) rootOnly

theorem mounts_visible_a : ∃ t₁ s₁,
    mount (fsOps bump noLayers) (ramfsMount bump) ramfsUnmount (some 2) sysA.table sysA.state = (.ok 5, t₁, s₁) ∧
      (resolve (fsOps bump noLayers) t₁ (some 1) [97] s₁).1 = .ok (some 5) ∧
      (resolve (fsOps bump noLayers) (unmount 5 t₁).2 (some 1) [97] s₁).1 = .ok (some 2) := by
  have hy : Intact noLayers sysA := (exec_intact (c := .nodeMkdir 1 [97]) rootOnly_intact rfl).1
  have hp : MountPath sysA.table sysA.state (some 1) [97] 1 [] 2 :=
    ⟨rfl, ⟨[], [97], 1, [⟨[97], 2⟩], ⟨[97], 2⟩, rfl, .nil 1, rfl, rfl, rfl, rfl, by decide, rfl⟩,
      fun _ _ h => (nomatch h), List.not_mem_nil⟩
  refine ⟨_, _, rfl, ?_⟩
  have h := mounts_visible hy hp (LiveOpt.some rfl)
    (show mount (fsOps bump noLayers) (mountFs bump noLayers .ramfs) (unmountFs noLayers .ramfs) (some 2)
      sysA.table sysA.state = (.ok 5, _, _) from rfl) .start
  exact ⟨h.2.1, h.2.2.2⟩

/-- One writable layer, the small system's root. -/
def layerA : Layers := { noLayers with layer := fun _ => ⟨some 1, true⟩ }

/-- The overlay of that layer as root file system; its root is vnode 6. -/
def overlayA : Sys :=
  { sysA with table := ⟨fun _ => none, some 6, true⟩, state := (overlayMount bump layerA sysA.state).2 }

/-- On an overlay `"/a"` is a new vnode at every lookup: the mount on the first one, vnode 8, is not
seen by the next. -/
theorem mount_invisible : ∃ s₀ t₁ s₁ s₂,
    resolve (fsOps bump layerA) overlayA.table none [47, 97] overlayA.state = (.ok (some 8), s₀) ∧
      mount (fsOps bump layerA) (ramfsMount bump) ramfsUnmount (some 8) overlayA.table s₀ = (.ok 9, t₁, s₁) ∧
      resolve (fsOps bump layerA) t₁ none [47, 97] s₁ = (.ok (some 12), s₂) := by
  simp only [resolve_eq_walkFrom]
  exact ⟨_, _, _, _, rfl, rfl, rfl⟩

end Tori.Fs
