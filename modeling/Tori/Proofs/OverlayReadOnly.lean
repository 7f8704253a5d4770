import Tori.Proofs.FsSteady

/-! The read-only layers of an overlay. `R` is the set of their nodes. Nothing outside `R` that the
overlay may write to leads into `R`, so that every call that only writes to writable layers stays
outside. -/

namespace Tori.Fs

open Vfs State Function

variable {s s' s₁ s₂ s₃ : State} {A : Allocator} {g : Layers} {R : Set Addr}

variable {a dir : Addr} {name : Str} {offset : ℕ} {o : OverlayVnode}

/-! ### Keeping a set of nodes apart -/

/-- The nodes of `R` are live RamFS nodes, and neither directories outside `R` nor the writable
layers of an overlay vnode lead into `R`. -/
structure Apart (g : Layers) (R : Set Addr) (s : State) : Prop where
  live : ∀ a ∈ R, s.live a = true
  ram : ∀ a ∈ R, s.overlay? a = none
  entry : ∀ d es e, s.live d = true → d ∉ R → s.entries d = some es → e ∈ es → e.vnode ∉ R
  layer : ∀ v o i a, s.live v = true → s.overlay? v = some o → g.writable i = true →
    o.layerRoots i = some a → a ∉ R

/-- From a state in which `R` is apart, the nodes of `R` keep their contents and stay apart. -/
def Spares (g : Layers) (R : Set Addr) (s s' : State) : Prop :=
  Apart g R s → Apart g R s' ∧ ∀ a ∈ R, s'.body a = s.body a

theorem Spares.trans (h : Spares g R s₁ s₂) (h' : Spares g R s₂ s₃) : Spares g R s₁ s₃ := by
  intro h₁
  obtain ⟨h₂, hb⟩ := h h₁
  obtain ⟨h₃, hb'⟩ := h' h₂
  exact ⟨h₃, fun a ha => (hb' a ha).trans (hb a ha)⟩

/-- Data that does not lead into `R`. -/
def Clean (g : Layers) (R : Set Addr) : PrivateData → Prop
  | .dir d => ∀ e ∈ d.entries, e.vnode ∉ R
  | .file _ => True
  | .overlay o => ∀ i a, g.writable i = true → o.layerRoots i = some a → a ∉ R

/-- A step that changes the nodes of `C`, all outside `R`, and leaves clean data there. -/
theorem Spares.of_change (C : Set Addr) (hC : ∀ x ∈ C, x ∉ R ∧ Clean g R (s'.core x).privateData)
    (hkeep : ∀ x ∈ R, s.live x = true → s'.live x = true)
    (hback : ∀ x, x ∉ C → s'.live x = true → s.live x = true)
    (hbody : ∀ x, x ∉ C → s.live x = true → s'.body x = s.body x) : Spares g R s s' := by
  intro h
  have hout : ∀ x ∈ R, x ∉ C := fun x hx hc => (hC x hc).1 hx
  have hdata : ∀ x, x ∉ C → s.live x = true → (s'.core x).privateData = (s.core x).privateData := fun x hx hl =>
    data_of_body (hbody x hx hl)
  refine ⟨⟨fun a ha => hkeep a ha (h.live a ha), fun a ha => ?_, fun d es e hd hR hes he => ?_,
    fun v o i a hv ho hw hi => ?_⟩, fun a ha => hbody a (hout a ha) (h.live a ha)⟩
  · rw [overlay?_congr (hdata a (hout a ha) (h.live a ha))]
    exact h.ram a ha
  · by_cases hc : d ∈ C
    · have hclean := (hC d hc).2
      rw [core_of_entries hes] at hclean
      exact hclean e he
    · have hl := hback d hc hd
      exact h.entry d es e hl hR ((entries_congr (hdata d hc hl)) ▸ hes) he
  · by_cases hc : v ∈ C
    · have hclean := (hC v hc).2
      rw [core_of_overlay? ho] at hclean
      exact hclean i a hw hi
    · have hl := hback v hc hv
      exact h.layer v o i a hl ((overlay?_congr (hdata v hc hl)) ▸ ho) hw hi

theorem Spares.of_body (hl : s'.live = s.live) (hb : ∀ a, s.live a = true → s'.body a = s.body a) :
    Spares g R s s' :=
  Spares.of_change ∅ (fun _ hx => hx.elim) (fun _ _ hx => hl ▸ hx) (fun _ _ hx => hl ▸ hx) fun x _ hx => hb x hx

theorem RefsOnly.spares (h : RefsOnly s s') : Spares g R s s' := Spares.of_body h.live fun a _ => h.body a

theorem Same.spares (h : Same s s') : Spares g R s s' :=
  Spares.of_body h.live fun a ha => body_of_core (h.core a ha)

theorem Spares.refl (s : State) : Spares g R s s := (RefsOnly.refl s).spares

theorem Apart.fresh (h : Apart g R s) (hf : s.live a = false) : a ∉ R := by
  intro ha
  rw [h.live a ha] at hf
  cases hf

theorem NewOverlay.spares {roots : Fin maxLayers → Option Addr} {vn : Addr} (h : NewOverlay roots s vn s')
    (hr : ∀ i a, g.writable i = true → roots i = some a → a ∉ R) : Spares g R s s' := by
  intro hs
  refine Spares.of_change {vn} (fun x hx => ?_) (fun x _ hx => ?_) (fun x hx hl => ?_) (fun x hx _ => ?_) hs
  · rw [Set.mem_singleton_iff.mp hx]
    exact ⟨hs.fresh h.fresh, by rw [h.node]; exact hr⟩
  · rw [h.live]
    by_cases hxv : x = vn
    · rw [hxv, update_self]
    · rw [update_of_ne hxv]
      exact hx
  · rw [h.live, update_of_ne hx] at hl
    exact hl
  · exact body_of_core (h.other x hx)

theorem Made.spares {v : Vnode} (h : Made v dir name s a s') (hd : s.live dir = true)
    (hR : dir ∉ R) (hv : Clean g R v.privateData.core) : Spares g R s s' := by
  intro hs
  obtain ⟨es, hes, -, hdir⟩ := h.parent
  refine Spares.of_change {a, dir} (fun x hx => ?_) (fun x _ hx => ?_) (fun x hx hl => ?_) (fun x hx _ => ?_) hs
  · rcases hx with rfl | rfl
    · exact ⟨hs.fresh h.fresh, by rw [h.node]; exact hv⟩
    · refine ⟨hR, ?_⟩
      rw [hdir]
      intro e he
      rcases List.mem_append.mp he with he | he
      · exact hs.entry x es e hd hR hes he
      · rw [List.mem_singleton.mp he]
        exact hs.fresh h.fresh
  · rw [h.live]
    by_cases hxa : x = a
    · rw [hxa, update_self]
    · rw [update_of_ne hxa]
      exact hx
  · rw [h.live, update_of_ne fun hxa => hx (Or.inl hxa)] at hl
    exact hl
  · exact body_of_core (h.other x (fun hxa => hx (Or.inl hxa)) fun hxd => hx (Or.inr hxd))

theorem setData_spares {p : PrivateData} (ha : a ∉ R) (hp : Clean g R p.core) :
    Spares g R s (s.setData a p) := by
  refine Spares.of_change {a} (fun x hx => ?_) (fun x _ hx => hx) (fun x _ hx => hx) (fun x hx _ => ?_)
  · rw [Set.mem_singleton_iff.mp hx, core_setData]
    exact ⟨ha, by simpa using hp⟩
  · refine body_of_core ?_
    rw [core_setData]
    exact update_of_ne hx _ _

theorem release_spares (ha : a ∉ R) : Spares g R s (s.release a) := by
  refine Spares.of_change ∅ (fun x hx => hx.elim) (fun x hx hl => ?_) (fun x _ hl => ?_) fun x _ _ => rfl
  · have hxa : x ≠ a := by
      rintro rfl
      exact ha hx
    rw [live_release, update_of_ne hxa]
    exact hl
  · by_cases hxa : x = a
    · rw [hxa, live_release, update_self] at hl
      cases hl
    · rw [live_release, update_of_ne hxa] at hl
      exact hl

/-! ### RamFS operations outside the set -/

variable {r : Except Err Addr} {buf : ℕ → UInt8} {node root : Addr} {size : ℕ}

theorem ramfsMake_spares (type : VnodeType) (data : PrivateData)
    (hd : s.live dir = true) (hR : dir ∉ R) (hv : Clean g R data.core)
    (h : ramfsMake A type data dir name s = (r, s')) : Spares g R s s' := by
  cases ramfsMake_cases hd h with
  | failed hs => exact hs.spares
  | made hm => exact hm.spares hd hR hv

/-- Where RamFS is asked to create a file, the new vnode is outside as well. -/
theorem ramfsCreate_spares (hd : s.live dir = true) (hR : dir ∉ R)
    (h : ramfsCreate A dir name s = (r, s')) : Spares g R s s' :=
  ramfsMake_spares .file (.file ⟨[], 0⟩) hd hR trivial h

theorem ramfsMkdir_spares {r : Except Err Unit} (hd : s.live dir = true) (hR : dir ∉ R)
    (h : ramfsMkdir A dir name s = (r, s')) : Spares g R s s' := by
  rcases hm : ramfsMake A .directory (.dir ⟨[], 0⟩) dir name s with ⟨r1, s1⟩
  unfold ramfsMkdir at h
  rw [hm] at h
  cases h
  exact ramfsMake_spares .directory (.dir ⟨[], 0⟩) hd hR (fun e he => (nomatch he)) hm

theorem releaseEntry_spares {d : RamfsDir} {e : RamfsEntry} (hd : s.live dir = true)
    (hR : dir ∉ R) (hdir : s.dir? dir = some d) (he : dirFindEntry d name = some e) :
    Spares g R s (releaseEntry dir d name e.vnode s) := by
  intro hs
  have hes := entries_of_dir? hdir
  have hout : ∀ x ∈ d.entries, x.vnode ∉ R := fun x hx => hs.entry dir d.entries x hd hR hes hx
  unfold releaseEntry dirRemoveEntry
  rw [he]
  refine ((release_spares (hout e (List.mem_of_find?_eq_some he))).trans
    ((RefsOnly.unref _ _).spares.trans (setData_spares hR ?_))) hs
  intro x hx
  exact hout x (List.mem_of_mem_eraseP hx)

theorem Removal.spares {type : VnodeType} {r : Except Err Unit × State} (h : Removal type dir name s r)
    (hd : s.live dir = true) (hR : dir ∉ R) : Spares g R s r.2 := by
  cases h with
  | fault hdir => exact Spares.refl s
  | missing hdir he => exact Spares.refl s
  | kept hdir he herr => exact (RefsOnly.touch _ s).spares
  | removed hdir he htype hdata => exact (RefsOnly.touch _ s).spares.trans (releaseEntry_spares hd hR hdir he)

theorem ramfsWrite_spares (hR : node ∉ R) :
    Spares g R s (ramfsWrite A node offset buf size s).2 := by
  rcases h : ramfsWrite A node offset buf size s with ⟨r, s'⟩
  have hclock : ∀ k, Spares g R s { s.touch node with clock := k } := fun k =>
    RefsOnly.spares ⟨rfl, fun _ => rfl⟩
  rcases ramfsWrite_spec h with ⟨k, hk⟩ | ⟨f, f', k, -, hk⟩
  · rw [hk]
    exact hclock k
  · rw [hk]
    exact (hclock k).trans (setData_spares hR trivial)

/-! ### The overlay's operations -/

/-- An overlay vnode that may be used: it and the layer vnodes it refers to are allocated, and
these are still RamFS vnodes. -/
def InUse (s : State) (v : Addr) : Prop :=
  s.live v = true ∧ ∃ o, s.overlay? v = some o ∧ ∀ i a, o.layerRoots i = some a →
    s.live a = true ∧ s.overlay? a = none

theorem overlayLookup_spares (hu : InUse s dir) :
    Spares g R s (overlayLookup A g dir name s).2 := by
  intro hs
  obtain ⟨hdir, o, ho, hroots⟩ := hu
  rcases h : overlayLookup A g dir name s with ⟨r, s'⟩
  cases overlayLookup_cases h with
  | failed hrefs => exact hrefs.spares hs
  | found ho' r1 hnew hent =>
    rw [ho] at ho'
    injection ho' with ho'
    subst ho'
    refine (r1.spares.trans (hnew.spares fun i a hw hi => ?_)) hs
    obtain ⟨root, es, e, hroot, hes, he, rfl⟩ := hent i a hi
    exact hs.entry root es e (hroots i root hroot).1 (hs.layer dir o i root hdir ho hw hroot) hes he

theorem overlayCreate_spares (hu : InUse s dir) :
    Spares g R s (overlayCreate A g dir name s).2 := by
  intro hs
  obtain ⟨hdir, o, ho, hroots⟩ := hu
  have hroot : ∀ {o' i root}, s.overlay? dir = some o' → firstWritable g o' g.indices = some (i, root) →
      s.live root = true ∧ root ∉ R := fun ho' hw => by
    obtain ⟨hwi, hroot⟩ := firstWritable_some hw
    cases ho.symm.trans ho'
    exact ⟨(hroots _ _ hroot).1, hs.layer dir o _ _ hdir ho hwi hroot⟩
  have hcases := overlayCreate_cases (A := A) (g := g) hdir name
  generalize overlayCreate A g dir name s = r at hcases ⊢
  cases hcases with
  | refused => exact Spares.refl s hs
  | failed ho hw hreal hrefs =>
    exact (ramfsCreate_spares (hroot ho hw).1 (hroot ho hw).2 hreal).trans hrefs.spares hs
  | made ho hw hreal hrefs hnew =>
    have sp : Spares g R s _ := (ramfsCreate_spares (hroot ho hw).1 (hroot ho hw).2 hreal).trans hrefs.spares
    refine sp.trans (hnew.spares fun j a _ hj => ?_) hs
    rw [eq_of_only hj]
    cases ramfsMake_cases (hroot ho hw).1 hreal with | made hm => exact hs.fresh hm.fresh

theorem overlayMkdir_spares (hu : InUse s dir) :
    Spares g R s (overlayMkdir A g dir name s).2 := by
  intro hs
  obtain ⟨hdir, o, ho, hroots⟩ := hu
  unfold overlayMkdir
  rw [touch_of_live hdir]
  dsimp only
  rw [ho]
  dsimp only
  split
  · exact Spares.refl s hs
  · rename_i i root hw
    obtain ⟨hwi, hroot⟩ := firstWritable_some hw
    exact ramfsMkdir_spares (hroots i root hroot).1 (hs.layer dir o i root hdir ho hwi hroot) rfl hs

theorem overlayRmdir_spares (hu : InUse s dir) :
    Spares g R s (overlayRmdir g dir name s).2 := by
  intro hs
  obtain ⟨hdir, o, ho, hroots⟩ := hu
  unfold overlayRmdir
  rw [touch_of_live hdir]
  dsimp only
  rw [ho]
  dsimp only
  split
  · exact Spares.refl s hs
  · rename_i i root hw
    obtain ⟨hwi, hroot⟩ := firstWritable_some hw
    split
    · rename_i e s1 h1
      exact (RefsOnly.lookup h1).spares hs
    · rename_i real s1 h1
      have r1 := (RefsOnly.lookup h1).trans (RefsOnly.unref real s1)
      have hlive : (vnodeUnref real s1).live root = true := r1.live ▸ (hroots i root hroot).1
      exact (r1.spares.trans ((ramfsRmdir_cases hlive _).spares hlive (hs.layer dir o i root hdir ho hwi hroot))) hs

/-- A whiteout goes to a writable layer above. -/
theorem makeWhiteout_spares {i : Fin maxLayers}
    (hlive : ∀ j a, o.layerRoots j = some a → s.live a = true)
    (hout : ∀ j a, g.writable j = true → o.layerRoots j = some a → a ∉ R) :
    Spares g R s (makeWhiteout A g o i name s).2 := by
  unfold makeWhiteout
  split
  · exact Spares.refl s
  · rename_i j root hw
    obtain ⟨hwj, hroot⟩ := firstWritable_some hw
    split
    · rename_i wh s1 h1
      exact ((RefsOnly.lookup h1).trans (RefsOnly.unref wh s1)).spares
    · rename_i e s1 h1
      have r1 := RefsOnly.lookup h1
      have hl : s1.live root = true := r1.live ▸ hlive j root hroot
      rcases hc : ramfsCreate A root (makeWhiteoutName name) s1 with ⟨r, s2⟩
      exact r1.spares.trans (ramfsCreate_spares hl (hout j root hwj hroot) hc)

/-- By induction on the layers that are still to be searched. -/
theorem unlinkLayers_spares (is : List (Fin maxLayers))
    (hlive : ∀ j a, o.layerRoots j = some a → s.live a = true)
    (hout : ∀ j a, g.writable j = true → o.layerRoots j = some a → a ∉ R) :
    Spares g R s (unlinkLayers A g o name is s).2 := by
  induction is generalizing s with
  | nil => exact Spares.refl s
  | cons i is ih =>
    rw [unlinkLayers]
    split
    · exact ih hlive
    · rename_i root hroot
      split
      · rename_i e s1 h1
        have r1 := RefsOnly.lookup h1
        exact r1.spares.trans (ih fun j a hj => r1.live ▸ hlive j a hj)
      · rename_i real s1 h1
        have r1 := (RefsOnly.lookup h1).trans (RefsOnly.unref real s1)
        have hlive' : ∀ j a, o.layerRoots j = some a → (vnodeUnref real s1).live a = true :=
          fun j a hj => r1.live ▸ hlive j a hj
        split
        · rename_i hw
          exact r1.spares.trans ((ramfsUnlink_cases (hlive' i root hroot) _).spares (hlive' i root hroot) (hout i root hw hroot))
        · exact r1.spares.trans (makeWhiteout_spares hlive' hout)

theorem overlayUnlink_spares (hu : InUse s dir) :
    Spares g R s (overlayUnlink A g dir name s).2 := by
  intro hs
  obtain ⟨hdir, o, ho, hroots⟩ := hu
  unfold overlayUnlink
  rw [touch_of_live hdir]
  dsimp only
  rw [ho]
  exact unlinkLayers_spares _ (fun j a hj => (hroots j a hj).1)
    (fun j a hw hj => hs.layer dir o j a hdir ho hw hj) hs

theorem overlayReaddir_spares (hu : InUse s dir) :
    Spares g R s (overlayReaddir A g dir offset s).2 := by
  intro hs
  obtain ⟨hdir, o, ho, -⟩ := hu
  unfold overlayReaddir
  rw [touch_of_live hdir]
  dsimp only
  rw [ho]
  rcases h : buildMergedList A g dir o s with ⟨o', s'⟩
  obtain ⟨hr, s₁, r1, hs'⟩ := buildMergedList_spec h
  have hR : dir ∉ R := by
    intro hmem
    rw [hs.ram dir hmem] at ho
    cases ho
  have hsp : Spares g R s s' := by
    rcases hs' with rfl | rfl
    · exact r1.spares
    · refine r1.spares.trans (setData_spares hR ?_)
      intro i a hw hi
      rw [hr] at hi
      exact hs.layer dir o i a hdir ho hw hi
  dsimp only
  rw [h]
  split <;> exact hsp hs

/-- The layer that `firstLayer` finds. -/
def firstLayerIndex (g : Layers) (o : OverlayVnode) : Option (Fin maxLayers) :=
  g.indices.find? fun i => (o.layerRoots i).isSome

theorem firstLayer_some {real : Addr} (h : firstLayer g o = some real) :
    ∃ i, firstLayerIndex g o = some i ∧ o.layerRoots i = some real := by
  unfold firstLayer at h
  unfold firstLayerIndex
  generalize g.indices = is at h ⊢
  induction is with
  | nil => cases h
  | cons i is ih =>
    rw [List.findSome?_cons] at h
    rw [List.find?_cons]
    cases hi : o.layerRoots i with
    | none =>
      rw [hi] at h
      exact ih h
    | some a =>
      rw [hi] at h
      exact ⟨i, rfl, hi.trans h⟩

theorem overlayWrite_spares (hn : s.live node = true)
    (hw : ∀ o i, s.overlay? node = some o → firstLayerIndex g o = some i → g.writable i = true) :
    Spares g R s (overlayWrite A g node offset buf size s).2 := by
  intro hs
  unfold overlayWrite
  rw [touch_of_live hn]
  dsimp only
  split
  · exact Spares.refl s hs
  · rename_i real hreal
    obtain ⟨o, ho, hfirst⟩ := Option.bind_eq_some_iff.mp hreal
    obtain ⟨i, hi, hroot⟩ := firstLayer_some hfirst
    exact ramfsWrite_spares (hs.layer node o i real hn ho (hw o i ho hi) hroot) hs

/-! ### Runs -/

/-- The calls of the run, through overlay vnodes in use; `writing` says to which layers
`overlay_write` may go. -/
def OverlayCall (g : Layers) (writing : Fin maxLayers → Prop) (y : Sys) : Call → Prop
  | .nodeLookup dir _ => InUse y.state dir
  | .nodeCreate dir _ => InUse y.state dir
  | .nodeMkdir dir _ => InUse y.state dir
  | .nodeRmdir dir _ => InUse y.state dir
  | .nodeUnlink dir _ => InUse y.state dir
  | .nodeRead node _ _ _ => InUse y.state node
  | .nodeWrite node _ _ _ => InUse y.state node ∧
      ∀ o i, y.state.overlay? node = some o → firstLayerIndex g o = some i → writing i
  | .nodeReaddir dir _ => InUse y.state dir
  | _ => False

theorem InUse.isOverlay {v : Addr} (h : InUse s v) : isOverlay v s = true := by
  obtain ⟨-, o, ho, -⟩ := h
  rw [Fs.isOverlay, ho]
  rfl

theorem exec_spares {y : Sys} {c : Call} (hc : OverlayCall g (fun i => g.writable i = true) y c) :
    Spares g R y.state (exec A g c y).state := by
  cases c with
  | nodeLookup dir name =>
    have he : (exec A g (.nodeLookup dir name) y).state = (overlayLookup A g dir name y.state).2 :=
      congrArg Prod.snd (if_pos (InUse.isOverlay hc))
    rw [he]
    exact overlayLookup_spares hc
  | nodeCreate dir name =>
    have he : (exec A g (.nodeCreate dir name) y).state = (overlayCreate A g dir name y.state).2 :=
      congrArg Prod.snd (if_pos (InUse.isOverlay hc))
    rw [he]
    exact overlayCreate_spares hc
  | nodeMkdir dir name =>
    have he : (exec A g (.nodeMkdir dir name) y).state = (overlayMkdir A g dir name y.state).2 :=
      congrArg Prod.snd (if_pos (InUse.isOverlay hc))
    rw [he]
    exact overlayMkdir_spares hc
  | nodeRmdir dir name =>
    have he : (exec A g (.nodeRmdir dir name) y).state = (overlayRmdir g dir name y.state).2 :=
      congrArg Prod.snd (if_pos (InUse.isOverlay hc))
    rw [he]
    exact overlayRmdir_spares hc
  | nodeUnlink dir name =>
    have he : (exec A g (.nodeUnlink dir name) y).state = (overlayUnlink A g dir name y.state).2 :=
      congrArg Prod.snd (if_pos (InUse.isOverlay hc))
    rw [he]
    exact overlayUnlink_spares hc
  | nodeRead node offset buf size => exact (read_refs node offset size buf).spares
  | nodeWrite node offset buf size =>
    have he : (exec A g (.nodeWrite node offset buf size) y).state = (overlayWrite A g node offset buf size y.state).2 :=
      congrArg Prod.snd (if_pos (InUse.isOverlay hc.1))
    rw [he]
    exact overlayWrite_spares hc.1.1 hc.2
  | nodeReaddir dir offset =>
    have he : (exec A g (.nodeReaddir dir offset) y).state = (overlayReaddir A g dir offset y.state).2 :=
      congrArg Prod.snd (if_pos (InUse.isOverlay hc))
    rw [he]
    exact overlayReaddir_spares hc
  | resolve _ _ | mkdir _ _ | openPath _ _ _ _ | close _ _ | read _ _ _ _ | write _ _ _ _ | readdir _ _ | stat _ _
  | seek _ _ _ _ | mount _ _ | unmount _ | setRoot _ | spawn _ _ | fork _ _ | exit _ => exact hc.elim

/-! ### The trees of the layers -/

/-- The nodes below `root`. -/
inductive InTree (s : State) (root : Addr) : Addr → Prop
  | root : InTree s root root
  | entry {d : Addr} {es : List RamfsEntry} {e : RamfsEntry} (h : InTree s root d) (hes : s.entries d = some es)
      (he : e ∈ es) : InTree s root e.vnode

/-- A tree whose nodes keep their contents stays as it is. -/
theorem InTree.congr (h : ∀ x, InTree s root x → s'.body x = s.body x) :
    InTree s' root a ↔ InTree s root a := by
  constructor
  · intro ha
    induction ha with
    | root => exact .root
    | entry _ hes he ih => exact .entry ih ((entries_congr (data_of_body (h _ ih))) ▸ hes) he
  · intro ha
    induction ha with
    | root => exact .root
    | entry hd hes he ih => exact .entry ih ((entries_congr (data_of_body (h _ hd))).trans hes) he

/-- The nodes of the read-only layers. -/
def readOnlyNodes (g : Layers) (s : State) : Set Addr :=
  { a | ∃ i root, g.writable i = false ∧ rootLayers g i = some root ∧ InTree s root a }

/-- The layers are RamFS trees, and no writable layer leads into a read-only one. -/
structure Layered (g : Layers) (s : State) : Prop where
  apart : Apart g (readOnlyNodes g s) s
  roots : ∀ i a, g.writable i = true → rootLayers g i = some a → a ∉ readOnlyNodes g s

theorem overlayMount_spares (hroots : ∀ i a, g.writable i = true → rootLayers g i = some a → a ∉ R)
    (h : overlayMount A g s = (.ok root, s')) : Spares g R s s' := by
  unfold overlayMount at h
  rcases hb : allocBlock A s with ⟨r, s1⟩
  rw [hb] at h
  cases r with
  | false => cases h
  | true =>
    dsimp only at h
    split at h
    · cases h
    · rename_i vn s2 hn
      cases h
      exact (((RefsOnly.alloc hb).trans (refRoots_refs _ _ s1)).spares).trans ((newVnode_overlay hn).spares hroots)

/-- Whatever is done through the vnodes of a mounted overlay: as long as `overlay_write` only goes
to writable layers, the tree and the contents of every read-only layer are those from before. -/
theorem readOnly_layers_kept {y₀ y : Sys} {root : Addr} {s₁ : State} (h₀ : Layered g y₀.state)
    (hm : overlayMount A g y₀.state = (.ok root, s₁))
    (hrun : Run A g (OverlayCall g fun i => g.writable i = true) { y₀ with state := s₁ } y) :
    ∀ i lroot, g.writable i = false → rootLayers g i = some lroot → ∀ a,
      (InTree y.state lroot a ↔ InTree y₀.state lroot a) ∧
        (InTree y₀.state lroot a → y.state.live a = true ∧ y.state.body a = y₀.state.body a) := by
  have hsp : Spares g (readOnlyNodes g y₀.state) y₀.state y.state :=
    hrun.invariant (P := fun y => Spares g (readOnlyNodes g y₀.state) y₀.state y.state)
      (overlayMount_spares h₀.roots hm) fun _ _ h hc => h.trans (exec_spares hc)
  obtain ⟨hapart, hbody⟩ := hsp h₀.apart
  intro i lroot hi hl a
  have hin : ∀ x, InTree y₀.state lroot x → x ∈ readOnlyNodes g y₀.state := fun x hx => ⟨i, lroot, hi, hl, hx⟩
  exact ⟨InTree.congr fun x hx => hbody x (hin x hx), fun ha => ⟨hapart.live a (hin a ha), hbody a (hin a ha)⟩⟩

/-! ### A small overlay -/

/-- Two RamFS trees: vnode 1, and vnode 2 with a file `f`, vnode 4. -/
def twoTrees : State := (ramfsCreate bump 2 [102] (ramfsMount bump rootOnly.state).2).2

/-- The first is the writable upper layer, the second the read-only lower one. -/
def upperLower : Layers := ⟨fun i => if i = 0 then ⟨some 1, true⟩ else ⟨some 2, false⟩, 2, by decide, by decide⟩

/-- The overlay is mounted; its root is vnode 8. -/
def overTwo : Sys := { rootOnly with state := (overlayMount bump upperLower twoTrees).2 }

theorem twoTrees_live (h : twoTrees.live a = true) : a = 1 ∨ a = 2 ∨ a = 4 := by
  have hl : twoTrees.live = update (update rootOnly.state.live 2 true) 4 true := rfl
  rw [hl] at h
  by_cases h4 : a = 4
  · exact Or.inr (Or.inr h4)
  · by_cases h2 : a = 2
    · exact Or.inr (Or.inl h2)
    · rw [update_of_ne h4, update_of_ne h2] at h
      exact Or.inl (of_decide_eq_true h)

theorem twoTrees_lower (h : InTree twoTrees 2 a) : a = 2 ∨ a = 4 := by
  induction h with
  | root => exact Or.inl rfl
  | entry _ hes he ih =>
    rcases ih with rfl | rfl
    · injection hes with hes
      rw [← hes] at he
      rw [List.mem_singleton.mp he]
      exact Or.inr rfl
    · cases hes

theorem twoTrees_file : InTree twoTrees 2 4 :=
  InTree.entry (e := ⟨[102], 4⟩) .root rfl (List.mem_singleton.mpr rfl)

theorem readOnlyNodes_two : a ∈ readOnlyNodes upperLower twoTrees ↔ a = 2 ∨ a = 4 := by
  constructor
  · rintro ⟨i, root, hi, hroot, ha⟩
    by_cases h0 : i = 0
    · subst h0
      cases hi
    · have hr : root = 2 := by
        simp only [rootLayers, upperLower, h0, if_false] at hroot
        split at hroot
        · exact (Option.some.inj hroot).symm
        · cases hroot
      rw [hr] at ha
      exact twoTrees_lower ha
  · rintro (rfl | rfl)
    · exact ⟨1, 2, rfl, rfl, .root⟩
    · exact ⟨1, 2, rfl, rfl, twoTrees_file⟩

theorem twoTrees_layered : Layered upperLower twoTrees := by
  refine ⟨⟨fun a ha => ?_, fun a ha => ?_, fun d es e hd hR hes he => ?_, fun v o i a hv ho => ?_⟩, fun i a hw hi => ?_⟩
  · rcases readOnlyNodes_two.mp ha with rfl | rfl <;> rfl
  · rcases readOnlyNodes_two.mp ha with rfl | rfl <;> rfl
  · rcases twoTrees_live hd with rfl | h2
    · injection hes with hes
      rw [← hes] at he
      cases he
    · exact absurd (readOnlyNodes_two.mpr h2) hR
  · rcases twoTrees_live hv with rfl | rfl | rfl <;> cases ho
  · by_cases h0 : i = 0
    · subst h0
      injection hi with hi
      rw [← hi, readOnlyNodes_two]
      decide
    · simp [Layers.writable, upperLower, h0] at hw

theorem overTwo_inUse : InUse overTwo.state 8 := by
  refine ⟨rfl, _, rfl, fun i a hi => ?_⟩
  have ha : a = 1 ∨ a = 2 := by
    have hi' : rootLayers upperLower i = some a := hi
    unfold rootLayers upperLower at hi'
    split at hi'
    · dsimp only at hi'
      split at hi' <;> cases hi' <;> simp
    · cases hi'
  rcases ha with rfl | rfl <;> exact ⟨rfl, rfl⟩

/-- Creating `g` through the overlay leaves the file of the lower layer alone. -/
theorem readOnly_layers_kept_create :
    (exec bump upperLower (.nodeCreate 8 [103]) overTwo).state.body 4 = twoTrees.body 4 := by
  have hrun : Run bump upperLower (OverlayCall upperLower fun i => upperLower.writable i = true) overTwo
      (exec bump upperLower (.nodeCreate 8 [103]) overTwo) := .step .start overTwo_inUse
  have h := @readOnly_layers_kept bump upperLower { rootOnly with state := twoTrees } _ 8 _ twoTrees_layered rfl hrun
  exact ((h 1 2 rfl rfl 4).2 twoTrees_file).2

/-- `lookup("f")` returns vnode 10 over the file of the read-only layer alone; a write through it
goes into that file. -/
theorem readOnly_layer_written :
    ∃ y, Run bump upperLower (OverlayCall upperLower fun _ => True) overTwo y ∧ upperLower.writable 1 = false ∧
      twoTrees.file? 4 = some ⟨[], 0⟩ ∧ (y.state.file? 4).map RamfsFile.size = some 1 := by
  let y₁ := exec bump upperLower (.nodeLookup 8 [102]) overTwo
  have h1 : Run bump upperLower (OverlayCall upperLower fun _ => True) overTwo y₁ := .step .start overTwo_inUse
  have hu : InUse y₁.state 10 := by
    refine ⟨rfl, _, rfl, fun i a hi => ?_⟩
    have ha : a = 4 := by
      have hi' : update (fun _ => none) 1 (some 4) i = some a := hi
      by_cases h : i = 1
      · rw [h, update_self] at hi'
        exact (Option.some.inj hi').symm
      · rw [update_of_ne h] at hi'
        cases hi'
    rw [ha]
    exact ⟨rfl, rfl⟩
  exact ⟨_, .step h1 (c := .nodeWrite 10 0 (fun _ => 7) 1) ⟨hu, fun _ _ _ _ => trivial⟩, rfl, rfl, rfl⟩

end Tori.Fs
