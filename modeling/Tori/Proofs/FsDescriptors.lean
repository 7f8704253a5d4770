import Tori.Proofs.FsCalls

/-! Open descriptors on a RamFS tree. As long as no `unlink` or `rmdir` succeeds, descriptors refer
to live vnodes and no operation touches a released one. A successful one does both kinds of harm:
it releases the vnode whoever has it open, and then drops the entry's reference to it. -/

namespace Tori.Fs

open Vfs State

variable {s s' s₁ s₂ s₃ : State} {A : Allocator} {g : Layers} {t : Table Addr}

variable {a dir node : Addr} {name : Str} {base : Option Addr} {y : Sys}

/-- No overlay vnodes. -/
def Plain (s : State) : Prop := ∀ a, s.live a = true → isOverlay a s = false

/-- No released vnode was touched, and no overlay vnode was made. -/
structure Tidy (s s' : State) : Prop where
  stale : s'.stale = s.stale
  plain : Plain s → Plain s'

theorem Tidy.refl (s : State) : Tidy s s := ⟨rfl, id⟩

theorem Tidy.trans (h : Tidy s₁ s₂) (h' : Tidy s₂ s₃) : Tidy s₁ s₃ :=
  ⟨h'.stale.trans h.stale, fun hp => h'.plain (h.plain hp)⟩

theorem Tidy.of_body (hst : s'.stale = s.stale) (hl : s'.live = s.live)
    (hb : ∀ a, s.live a = true → s'.body a = s.body a) : Tidy s s' := by
  refine ⟨hst, fun hp a ha => ?_⟩
  rw [hl] at ha
  rw [isOverlay, overlay?_congr (data_of_body (hb a ha))]
  exact hp a ha

theorem Same.tidy (h : Same s s') : Tidy s s' :=
  Tidy.of_body h.stale h.live fun a ha => body_of_core (h.core a ha)

theorem ref_tidy (ha : s.live a = true) : Tidy s (vnodeRef a s) :=
  Tidy.of_body (stale_vnodeRef ha) rfl fun x _ => (RefsOnly.ref a s).body x

theorem unref_tidy (ha : s.live a = true) : Tidy s (vnodeUnref a s) :=
  Tidy.of_body (stale_vnodeUnref ha) rfl fun x _ => (RefsOnly.unref a s).body x

theorem Made.tidy {v : Vnode} (h : Made v dir name s a s')
    (hv : ∀ o, v.privateData ≠ .overlay o) : Tidy s s' := by
  refine ⟨h.stale, fun hp x hx => ?_⟩
  obtain ⟨es, hes, -, hdir⟩ := h.parent
  rw [isOverlay, overlay?_eq]
  by_cases hxa : x = a
  · rw [hxa, h.node]
    cases hd : v.privateData with
    | dir d => simp [Vnode.core, PrivateData.core, hd]
    | file f => simp [Vnode.core, PrivateData.core, hd]
    | overlay o => exact absurd hd (hv o)
  · by_cases hxd : x = dir
    · rw [hxd, hdir]
      rfl
    · rw [h.other x hxa hxd, ← overlay?_eq]
      rw [h.live, Function.update_of_ne hxa] at hx
      exact hp x hx

theorem ramfsMake_tidy (type : VnodeType) (data : PrivateData) (hdata : ∀ o, data ≠ .overlay o)
    (hd : s.live dir = true) (name : Str) : Tidy s (ramfsMake A type data dir name s).2 := by
  rcases h : ramfsMake A type data dir name s with ⟨r, s'⟩
  cases ramfsMake_cases hd h with
  | failed hs => exact hs.tidy
  | made hm => exact hm.tidy hdata

theorem setData_file_tidy {f f' : RamfsFile} (h : s.file? a = some f) :
    Tidy s (s.setData a (.file f')) := by
  refine ⟨rfl, fun hp x hx => ?_⟩
  rw [(setData_file_steady h).grows.overlay x hx]
  exact hp x hx

theorem ramfsWrite_tidy (hn : s.live node = true) (offset size : ℕ) (buf : ℕ → UInt8) :
    Tidy s (ramfsWrite A node offset buf size s).2 := by
  have hk : ∀ k, Tidy s { s with clock := k } := fun k => Tidy.of_body rfl rfl fun _ _ => rfl
  rcases h : ramfsWrite A node offset buf size s with ⟨r, s'⟩
  rcases ramfsWrite_spec h with ⟨k, hs⟩ | ⟨f, f', k, hf, hs⟩
  · subst hs
    rw [touch_of_live hn]
    exact hk k
  · subst hs
    rw [touch_of_live hn]
    exact (hk k).trans (setData_file_tidy hf)

theorem installFd_tidy {v : Option Addr} (hv : LiveOpt s v) (flags : BitVec 32) (f : FdTable Addr) :
    Tidy s (installFd (fsOps A g) v flags f s).2.2 := by
  unfold installFd
  split
  · exact Tidy.refl s
  · cases v with
    | none => exact Tidy.refl s
    | some a => exact ref_tidy (hv a rfl)

/-! ### The operations of a plain tree -/

section Plain

variable (hp : Plain s)

include hp

theorem read_plain (hd : s.live node = true) (offset size : ℕ) (buf : ℕ → UInt8) :
    ((fsOps A g).read node offset buf size s).2 = s := by
  rw [read_ramfs (hp node hd)]
  exact (ramfsRead_snd node offset size buf).trans (touch_of_live hd)

theorem stat_plain (hd : s.live node = true) : ((fsOps A g).stat node s).2 = s := by
  rw [stat_ramfs (hp node hd)]
  exact (ramfsStat_snd node).trans (touch_of_live hd)

/-- Resolution in a plain tree does not change the heap. -/
theorem walk_plain (cs : List Str) (hc : Closed s) (ht : TableOk t s) {cur : Option Addr} (hv : LiveOpt s cur) :
    (walk (fsOps A g) t cs cur s).2 = s := by
  induction cs generalizing cur with
  | nil => rfl
  | cons c cs ih =>
    have hstep : (stepInto (fsOps A g) t cur c s).2 = s := by
      unfold stepInto
      split
      · rfl
      · cases cur with
        | none => rfl
        | some v =>
          dsimp only
          split
          · rfl
          · have hl : ((fsOps A g).lookup v c s).2 = s := by
              rw [lookup_ramfs (hp v (hv v rfl)), ramfsLookup_snd, touch_of_live (hv v rfl)]
            split
            · rename_i h1
              rw [h1] at hl
              exact hl
            · rename_i h1
              rw [h1] at hl
              exact hl
    have hr := (stepInto_reached (A := A) (g := g) hc ht hv c).2
    rw [walk]
    split
    · rename_i h1
      rw [h1] at hstep
      exact hstep
    · rename_i next s1 h1
      rw [h1] at hstep hr
      subst hstep
      exact ih (hr next rfl)

section

variable (hc : Closed s) (ht : TableOk t s) (hv : LiveOpt s base)
include hc ht hv

theorem resolve_plain (p : Str) : (resolve (fsOps A g) t base p s).2 = s := by
  rw [resolve_eq_walkFrom]
  rcases walkFrom_cases t base p (components p) s with ⟨e, -, he⟩ | ⟨-, he⟩
  · rw [he]
  · rw [he]
    exact walk_plain hp _ hc ht (startOf_live ht.root hv)

theorem createAt_tidy (p : Str) : Tidy s (createAt (fsOps A g) t base p s).2 := by
  have make : ∀ (parent : Option Addr) (name : Str), LiveOpt s parent →
      Tidy s (createIn (fsOps A g) parent name s).2 := by
    intro parent name hl
    unfold createIn
    cases parent with
    | none => exact Tidy.refl s
    | some a =>
      dsimp only
      rw [create_ramfs (hp a (hl a rfl))]
      exact ramfsMake_tidy .file (.file ⟨[], 0⟩) (fun _ h => by cases h) (hl a rfl) name
  unfold createAt
  split
  · exact make base p hv
  · split
    · exact Tidy.refl s
    · rename_i sep _ _
      have hs := resolve_plain (A := A) (g := g) hp hc ht hv (p.take sep)
      have hr := (resolve_reached (A := A) (g := g) hc ht hv (p.take sep)).2
      split
      · rename_i e s1 h1
        rw [h1] at hs
        subst hs
        exact Tidy.refl s1
      · rename_i parent s1 h1
        rw [h1] at hs hr
        subst hs
        exact make parent _ (hr parent rfl)

theorem openPath_tidy (p : Str)
    (flags : BitVec 32) (f : FdTable Addr) : Tidy s (openPath (fsOps A g) t base p flags f s).2.2 := by
  unfold openPath
  split
  · exact Tidy.refl s
  · have hs := resolve_plain (A := A) (g := g) hp hc ht hv p
    have hr := (resolve_reached (A := A) (g := g) hc ht hv p).2
    split
    · rename_i v s1 h1
      rw [h1] at hs hr
      subst hs
      exact installFd_tidy (hr v rfl) flags f
    · rename_i e s1 h1
      rw [h1] at hs
      subst hs
      split
      · have ht1 := createAt_tidy (A := A) (g := g) hp hc ht hv p
        have hl := (createAt_sound (A := A) (g := g) hc ht hv p).2
        split
        · rename_i e s2 h2
          rw [h2] at ht1
          exact ht1
        · rename_i v s2 h2
          rw [h2] at ht1 hl
          exact ht1.trans (installFd_tidy (LiveOpt.some (hl v rfl)) flags f)
      · exact Tidy.refl s1

end

end Plain

/-! ### Runs -/

/-- The calls of the run, on live vnodes; `removing` says when an `unlink` or `rmdir` is allowed. -/
def DescriptorCall (removing : Except Err Unit → Prop) (y : Sys) : Call → Prop
  | .openPath _ base _ _ => LiveOpt y.state base
  | .close _ _ => True
  | .read _ _ _ _ => True
  | .write _ _ _ _ => True
  | .stat _ _ => True
  | .seek _ _ _ _ => True
  | .nodeCreate dir _ => y.state.live dir = true
  | .nodeMkdir dir _ => y.state.live dir = true
  | .nodeUnlink dir name => y.state.live dir = true ∧ removing (ramfsUnlink dir name y.state).1
  | .nodeRmdir dir name => y.state.live dir = true ∧ removing (ramfsRmdir dir name y.state).1
  | _ => False

/-- A RamFS tree in order: everything that can be followed is live, nothing was misused. -/
structure Tree (g : Layers) (y : Sys) : Prop where
  intact : Intact g y
  plain : Plain y.state
  stale : y.state.stale = false

theorem Tree.of_tidy {y' : Sys} (h : Tree g y) (hi : Intact g y') (ht : Tidy y.state y'.state) : Tree g y' :=
  ⟨hi, ht.plain h.plain, ht.stale.trans h.stale⟩

theorem fdVnode_live (h : Tree g y) {q : ℕ} {fd : ℤ} {i : Fin maxFds} {v : Addr}
    (hi : descriptor (y.fds q) fd = some i) (hv : (y.fds q i).vnode = some v) : y.state.live v = true :=
  h.intact.fds q i v (descriptor_used hi) hv

theorem Removal.kept_state {type : VnodeType} {x : Except Err Unit × State} (h : Removal type dir name s x)
    (hc : Closed s) (hd : s.live dir = true) (hr : x.1 ≠ .ok ()) : x.2 = s := by
  cases h with
  | fault hdir => rfl
  | missing hdir he => rfl
  | kept hdir he herr =>
    exact touch_of_live (hc.entry dir _ _ hd (entries_of_dir? hdir) (List.mem_of_find?_eq_some he))
  | removed => exact absurd rfl hr

theorem exec_unlink (h : Tree g y) (hd : y.state.live dir = true)
    (hr : (ramfsUnlink dir name y.state).1 ≠ .ok ()) : exec A g (.nodeUnlink dir name) y = y := by
  change { y with state := (nodeUnlink A g dir name y.state).2 } = y
  rw [nodeUnlink, h.plain dir hd, if_neg Bool.false_ne_true,
    (ramfsUnlink_cases hd name).kept_state h.intact.closed hd hr]

theorem exec_rmdir (h : Tree g y) (hd : y.state.live dir = true)
    (hr : (ramfsRmdir dir name y.state).1 ≠ .ok ()) : exec A g (.nodeRmdir dir name) y = y := by
  change { y with state := (nodeRmdir g dir name y.state).2 } = y
  rw [nodeRmdir, h.plain dir hd, if_neg Bool.false_ne_true,
    (ramfsRmdir_cases hd name).kept_state h.intact.closed hd hr]

theorem OnFd.tidy {op : Addr → Fin maxFds → State} {fd : ℤ} {f : FdTable Addr} {x : FdTable Addr × State}
    (h : OnFd op fd f s x) (hop : ∀ i v, descriptor f fd = some i → (f i).vnode = some v → Tidy s (op v i)) :
    Tidy s x.2 := by
  rcases h.state with hx | ⟨i, v, hi, hv, hx⟩
  · rw [hx]
    exact Tidy.refl s
  · rw [hx]
    exact hop i v hi hv

theorem exec_tidy {c : Call} (h : Tree g y) (hc : DescriptorCall (fun r => r ≠ .ok ()) y c) :
    Tidy y.state (exec A g c y).state := by
  cases c with
  | openPath q base path flags => exact openPath_tidy h.plain h.intact.closed h.intact.table hc _ _ _
  | close q fd =>
    change Tidy y.state (Vfs.close (fsOps A g) fd (y.fds q) y.state).2.2
    unfold Vfs.close
    split
    · exact Tidy.refl _
    · rename_i i hi
      cases hv : (y.fds q i).vnode with
      | none => exact Tidy.refl _
      | some v => exact unref_tidy (fdVnode_live h hi hv)
  | read q fd buf size =>
    refine OnFd.tidy (read_onFd buf size) fun i v hi hv => ?_
    rw [read_plain h.plain (fdVnode_live h hi hv)]
    exact Tidy.refl _
  | write q fd buf size =>
    refine OnFd.tidy (write_onFd buf size) fun i v hi hv => ?_
    rw [write_ramfs (h.plain v (fdVnode_live h hi hv))]
    exact ramfsWrite_tidy (fdVnode_live h hi hv) _ _ _
  | stat q fd =>
    refine OnFd.tidy stat_onFd fun i v hi hv => ?_
    rw [stat_plain h.plain (fdVnode_live h hi hv)]
    exact Tidy.refl _
  | seek q fd offset whence =>
    refine OnFd.tidy (seek_onFd offset whence) fun i v hi hv => ?_
    rw [stat_plain h.plain (fdVnode_live h hi hv)]
    exact Tidy.refl _
  | nodeCreate dir name =>
    change Tidy y.state ((fsOps A g).create dir name y.state).2
    rw [create_ramfs (h.plain dir hc)]
    exact ramfsMake_tidy .file (.file ⟨[], 0⟩) (fun _ h => by cases h) hc name
  | nodeMkdir dir name =>
    change Tidy y.state ((fsOps A g).mkdir dir name y.state).2
    rw [mkdir_ramfs (h.plain dir hc)]
    exact ramfsMake_tidy .directory (.dir ⟨[], 0⟩) (fun _ h => by cases h) hc name
  | nodeUnlink dir name =>
    rw [exec_unlink h hc.1 hc.2]
    exact Tidy.refl _
  | nodeRmdir dir name =>
    rw [exec_rmdir h hc.1 hc.2]
    exact Tidy.refl _
  | resolve _ _ | mkdir _ _ | readdir _ _ | mount _ _ | unmount _ | setRoot _ | nodeLookup _ _ | nodeRead _ _ _ _
  | nodeWrite _ _ _ _ | nodeReaddir _ _ | spawn _ _ | fork _ _ | exit _ => exact hc.elim

theorem exec_tree {c : Call} (h : Tree g y) (hc : DescriptorCall (fun r => r ≠ .ok ()) y c) :
    Tree g (exec A g c y) := by
  refine h.of_tidy ?_ (exec_tidy h hc)
  have hi : ∀ c, Proper y c → Intact g (exec A g c y) := fun c hp => (exec_intact h.intact hp).1
  cases c with
  | nodeUnlink dir name => rw [exec_unlink h hc.1 hc.2]; exact h.intact
  | nodeRmdir dir name => rw [exec_rmdir h hc.1 hc.2]; exact h.intact
  | openPath q base path flags => exact hi (.openPath q base path flags) hc
  | nodeCreate dir name => exact hi (.nodeCreate dir name) hc
  | nodeMkdir dir name => exact hi (.nodeMkdir dir name) hc
  | close q fd => exact hi (.close q fd) trivial
  | read q fd buf size => exact hi (.read q fd buf size) trivial
  | write q fd buf size => exact hi (.write q fd buf size) trivial
  | stat q fd => exact hi (.stat q fd) trivial
  | seek q fd offset whence => exact hi (.seek q fd offset whence) trivial
  | resolve _ _ | mkdir _ _ | readdir _ _ | mount _ _ | unmount _ | setRoot _ | nodeLookup _ _ | nodeRead _ _ _ _
  | nodeWrite _ _ _ _ | nodeReaddir _ _ | spawn _ _ | fork _ _ | exit _ => exact hc.elim

/-- While no removal succeeds, every used descriptor's vnode is live, and with it the file data it
owns, and no operation has touched a released vnode. -/
theorem descriptors_valid {y₀ y : Sys} (h₀ : Tree g y₀)
    (hrun : Run A g (DescriptorCall fun r => r ≠ .ok ()) y₀ y) :
    (∀ q i a, (y.fds q i).used = true → (y.fds q i).vnode = some a → y.state.live a = true) ∧
      y.state.stale = false := by
  have h : Tree g y := hrun.invariant h₀ fun y c hy hc => exec_tree hy hc
  exact ⟨h.intact.fds, h.stale⟩

theorem rootOnly_tree : Tree noLayers rootOnly := ⟨rootOnly_intact, fun _ _ => rfl, rfl⟩

/-- `open("f", O_CREAT)` in the root. -/
def openF : Sys := exec bump noLayers (.openPath 0 (some 1) [102] oCreat) rootOnly

/-- What it leaves: vnode 2, with two references from the tree and one from descriptor 0. -/
theorem openF_eq : openF = { rootOnly with
    fds := Function.update rootOnly.fds 0 (Function.update noFds 0 ⟨some 2, 0, oCreat, true⟩)
    state := vnodeRef 2 (ramfsCreate bump 1 [102] rootOnly.state).2 } := by
  unfold openF
  dsimp only [exec]
  rw [show rootOnly.fds 0 = noFds from rfl, openPath_f]

theorem descriptors_valid_open :
    (openF.fds 0 0).used = true ∧ (openF.fds 0 0).vnode = some 2 ∧ openF.state.live 2 = true := by
  have hv := (descriptors_valid (A := bump) rootOnly_tree
    (.step .start (c := .openPath 0 (some 1) [102] oCreat) (LiveOpt.some rfl))).1 0 0 2
  have hu : (openF.fds 0 0).used = true := by rw [openF_eq]; rfl
  have hn : (openF.fds 0 0).vnode = some 2 := by rw [openF_eq]; rfl
  exact ⟨hu, hn, hv hu hn⟩

/-- After `unlink("f")` the descriptor refers to a released vnode, and `dir_remove_entry` has
touched it. -/
theorem descriptor_dangles :
    ∃ y, Run bump noLayers (DescriptorCall fun _ => True) rootOnly y ∧ (y.fds 0 0).used = true ∧
      (y.fds 0 0).vnode = some 2 ∧ y.state.live 2 = false ∧ y.state.stale = true := by
  have hrun : Run bump noLayers (DescriptorCall fun _ => True) rootOnly openF :=
    .step .start (LiveOpt.some rfl)
  refine ⟨exec bump noLayers (.nodeUnlink 1 [102]) openF, .step hrun ⟨?_, trivial⟩, ?_⟩
  · rw [openF_eq]
    rfl
  · rw [openF_eq]
    exact ⟨rfl, rfl, rfl, rfl⟩

end Tori.Fs
