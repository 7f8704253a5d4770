import Tori.Sanity.Overlay

/-! Calls that remove nothing. Directories only grow at their end, live vnodes stay live and keep
their kind, and every pointer that the file system follows leads to a live vnode. -/

namespace Tori.Fs

open Vfs State Function

variable {s s' s₁ s₂ s₃ : State} {A : Allocator} {g : Layers}

variable {a dir : Addr} {o : OverlayVnode}

structure Grows (s s' : State) : Prop where
  live : ∀ a, s.live a = true → s'.live a = true
  type : ∀ a, s.live a = true → (s'.vnodes a).type = (s.vnodes a).type
  entries : ∀ a es, s.live a = true → s.entries a = some es → ∃ more, s'.entries a = some (es ++ more)
  overlay : ∀ a, s.live a = true → isOverlay a s' = isOverlay a s

theorem Grows.trans (h : Grows s₁ s₂) (h' : Grows s₂ s₃) : Grows s₁ s₃ where
  live a ha := h'.live a (h.live a ha)
  type a ha := (h'.type a (h.live a ha)).trans (h.type a ha)
  entries a es ha hes := by
    obtain ⟨m, hm⟩ := h.entries a es ha hes
    obtain ⟨m', hm'⟩ := h'.entries a _ (h.live a ha) hm
    exact ⟨m ++ m', by rw [hm', List.append_assoc]⟩
  overlay a ha := (h'.overlay a (h.live a ha)).trans (h.overlay a ha)

/-- Entries of live directories and layers of live overlay vnodes are live. -/
structure Closed (s : State) : Prop where
  entry : ∀ d es e, s.live d = true → s.entries d = some es → e ∈ es → s.live e.vnode = true
  layer : ∀ v o i a, s.live v = true → s.overlay? v = some o → o.layerRoots i = some a → s.live a = true

structure Steady (s s' : State) : Prop where
  grows : Grows s s'
  closed : Closed s → Closed s'

theorem Steady.trans (h : Steady s₁ s₂) (h' : Steady s₂ s₃) : Steady s₁ s₃ :=
  ⟨h.grows.trans h'.grows, fun hc => h'.closed (h.closed hc)⟩

/-- Live vnodes keep kind and data, so nothing moves. -/
theorem Steady.of_body (hl : s'.live = s.live) (hb : ∀ a, s.live a = true → s'.body a = s.body a) :
    Steady s s' := by
  have hes : ∀ a, s.live a = true → s'.entries a = s.entries a := fun a ha =>
    entries_congr (data_of_body (hb a ha))
  have hov : ∀ a, s.live a = true → s'.overlay? a = s.overlay? a := fun a ha =>
    overlay?_congr (data_of_body (hb a ha))
  refine ⟨⟨fun a ha => by rw [hl]; exact ha, fun a ha => type_of_body (hb a ha), fun a es ha h => ?_, fun a ha => ?_⟩,
    fun hc => ⟨fun d es e hd h he => ?_, fun v o i a hv h hi => ?_⟩⟩
  · exact ⟨[], by rw [hes a ha, h, List.append_nil]⟩
  · rw [isOverlay, isOverlay, hov a ha]
  · rw [hl] at hd ⊢
    exact hc.entry d es e hd ((hes d hd) ▸ h) he
  · rw [hl] at hv ⊢
    exact hc.layer v o i a hv ((hov v hv) ▸ h) hi

theorem Steady.refl (s : State) : Steady s s := Steady.of_body rfl fun _ _ => rfl

theorem RefsOnly.steady (h : RefsOnly s s') : Steady s s' := Steady.of_body h.live fun a _ => h.body a

theorem Same.steady (h : Same s s') : Steady s s' := Steady.of_body h.live fun a ha => body_of_core (h.core a ha)

/-- What a new vnode may hold: no entries yet, and live layers. -/
def Wellborn (s : State) : PrivateData → Prop
  | .dir d => d.entries = []
  | .file _ => True
  | .overlay o => ∀ i a, o.layerRoots i = some a → s.live a = true

theorem Steady.of_new (hf : s.live a = false) (hl : s'.live = update s.live a true)
    (hn : Wellborn s (s'.core a).privateData) (ho : ∀ x, x ≠ a → s'.core x = s.core x) : Steady s s' := by
  have hne : ∀ x, s.live x = true → x ≠ a := fun x hx => ne_of_live hx hf
  have hkeep : ∀ x, s.live x = true → s'.live x = true := fun x hx => by rw [hl]; simp [hne x hx, hx]
  have hdata : ∀ x, x ≠ a → (s'.core x).privateData = (s.core x).privateData := fun x hx => by rw [ho x hx]
  refine ⟨⟨hkeep, fun x hx => ?_, fun x es hx h => ?_, fun x hx => ?_⟩,
    fun hc => ⟨fun d es e hd h he => ?_, fun v o i b hv h hi => ?_⟩⟩
  · rw [← type_core, ho x (hne x hx), type_core]
  · exact ⟨[], by rw [entries_congr (hdata x (hne x hx)), h, List.append_nil]⟩
  · rw [isOverlay, isOverlay, overlay?_congr (hdata x (hne x hx))]
  · by_cases hda : d = a
    · subst hda
      rw [core_of_entries h] at hn
      have hnil : es = [] := hn
      rw [hnil] at he
      cases he
    · rw [hl, update_of_ne hda] at hd
      exact hkeep _ (hc.entry d es e hd ((entries_congr (hdata d hda)) ▸ h) he)
  · by_cases hva : v = a
    · subst hva
      rw [core_of_overlay? h] at hn
      exact hkeep _ (hn i b hi)
    · rw [hl, update_of_ne hva] at hv
      exact hkeep _ (hc.layer v o i b hv ((overlay?_congr (hdata v hva)) ▸ h) hi)

theorem NewOverlay.steady {roots : Fin maxLayers → Option Addr} {vn : Addr} (h : NewOverlay roots s vn s')
    (hr : ∀ i a, roots i = some a → s.live a = true) : Steady s s' :=
  Steady.of_new h.fresh h.live (by rw [h.node]; exact hr) h.other

/-- A directory that is given one more, live, entry. -/
theorem Steady.of_append (es : List RamfsEntry) (e : RamfsEntry) (hl : s'.live = s.live)
    (hd : s.live dir = true) (hes : s.entries dir = some es) (he : s.live e.vnode = true)
    (hdir : s'.core dir = { s.core dir with privateData := .dir ⟨es ++ [e], 0⟩ })
    (ho : ∀ x, x ≠ dir → s'.core x = s.core x) : Steady s s' := by
  have hes' : s'.entries dir = some (es ++ [e]) := by rw [entries_eq, hdir]
  have hdata : ∀ x, x ≠ dir → (s'.core x).privateData = (s.core x).privateData := fun x hx => by rw [ho x hx]
  have hnov : s.overlay? dir = none := by rw [overlay?_eq, core_of_entries hes]
  have hnov' : s'.overlay? dir = none := by rw [overlay?_eq, hdir]
  refine ⟨⟨fun a ha => by rw [hl]; exact ha, fun x hx => ?_, fun x fs hx h => ?_, fun x hx => ?_⟩,
    fun hc => ⟨fun d fs f hfd h hf => ?_, fun v o i b hv h hi => ?_⟩⟩
  · rw [← type_core, ← type_core]
    by_cases hx : x = dir
    · rw [hx, hdir]
    · rw [ho x hx]
  · by_cases hx : x = dir
    · subst hx
      rw [hes] at h
      cases h
      exact ⟨[e], hes'⟩
    · exact ⟨[], by rw [entries_congr (hdata x hx), h, List.append_nil]⟩
  · rw [isOverlay, isOverlay]
    by_cases hx : x = dir
    · rw [hx, hnov, hnov']
    · rw [overlay?_congr (hdata x hx)]
  · rw [hl] at hfd ⊢
    by_cases hx : d = dir
    · subst hx
      rw [hes'] at h
      cases h
      rcases List.mem_append.mp hf with hf | hf
      · exact hc.entry d es f hfd hes hf
      · rw [List.mem_singleton.mp hf]
        exact he
    · exact hc.entry d fs f hfd ((entries_congr (hdata d hx)) ▸ h) hf
  · rw [hl] at hv ⊢
    by_cases hx : v = dir
    · subst hx
      rw [hnov'] at h
      cases h
    · exact hc.layer v o i b hv ((overlay?_congr (hdata v hx)) ▸ h) hi

theorem Made.steady {v : Vnode} {name : Str} (h : Made v dir name s a s') (hd : s.live dir = true)
    (hv : Wellborn s v.privateData.core) : Steady s s' := by
  obtain ⟨es, hes, -, hdir⟩ := h.parent
  have hne := ne_of_live hd h.fresh
  -- split the step: first the vnode, then the entry
  let m : State := { s' with vnodes := update s'.vnodes dir (s.vnodes dir) }
  have hm : ∀ x, x ≠ dir → m.core x = s'.core x := fun x hx => by simp [m, State.core, hx]
  have hmd : m.core dir = s.core dir := by simp [m, State.core]
  have h1 : Steady s m := by
    refine Steady.of_new h.fresh h.live ?_ fun x hx => ?_
    · rw [hm a hne.symm, h.node]
      exact hv
    · by_cases hxd : x = dir
      · rw [hxd, hmd]
      · rw [hm x hxd, h.other x hx hxd]
  refine h1.trans (Steady.of_append es ⟨copyName name, a⟩ rfl (by rw [h.live]; simp [hne, hd]) ?_ ?_ ?_
    fun x hx => (hm x hx).symm)
  · rw [← hes]
    exact entries_congr (by rw [hmd])
  · rw [h.live]
    simp
  · rw [hdir, hmd]

/-- Data of the same kind: a file for a file, or an overlay vnode over the same layers. -/
def SameKind : PrivateData → PrivateData → Prop
  | .file _, .file _ => True
  | .overlay o, .overlay o' => o'.layerRoots = o.layerRoots
  | _, _ => False

theorem Steady.of_setData {p : PrivateData} (hk : SameKind (s.core a).privateData p) :
    Steady s (s.setData a p) := by
  have hc : (s.setData a p).core = update s.core a { s.core a with privateData := p.core } := core_setData
  have hp : p.core = p := by
    cases p with
    | dir d => cases h : (s.core a).privateData <;> rw [h] at hk <;> exact hk.elim
    | file f => rfl
    | overlay o => rfl
  rw [hp] at hc
  have hdata : ∀ x, x ≠ a → ((s.setData a p).core x).privateData = (s.core x).privateData := fun x hx => by
    rw [hc]
    simp [hx]
  have hself : ((s.setData a p).core a).privateData = p := by rw [hc]; simp
  have hes : ∀ x, (s.setData a p).entries x = s.entries x := by
    intro x
    by_cases hx : x = a
    · subst hx
      rw [entries_eq, entries_eq, hself]
      cases h : (s.core x).privateData <;> cases p <;> first | rfl | (rw [h] at hk; exact hk.elim)
    · exact entries_congr (hdata x hx)
  have hov : ∀ x, ((s.setData a p).overlay? x).map OverlayVnode.layerRoots =
      (s.overlay? x).map OverlayVnode.layerRoots := by
    intro x
    by_cases hx : x = a
    · subst hx
      rw [overlay?_eq, overlay?_eq, hself]
      cases h : (s.core x).privateData <;> cases p <;>
        first | rfl | (rw [h] at hk; exact hk.elim) | (rw [h] at hk; exact congrArg some hk)
    · rw [overlay?_congr (hdata x hx)]
  refine ⟨⟨fun x hx => hx, fun x _ => ?_, fun x fs _ h => ⟨[], by rw [hes, h, List.append_nil]⟩, fun x _ => ?_⟩,
    fun hcl => ⟨fun d fs e hd h he => hcl.entry d fs e hd (hes d ▸ h) he, fun v o i b hv h hi => ?_⟩⟩
  · rw [← type_core, hc, ← type_core]
    by_cases hx : x = a
    · subst hx; simp
    · simp [hx]
  · have := congrArg Option.isSome (hov x)
    simpa [isOverlay] using this
  · have h1 := hov v
    rw [h, Option.map_some] at h1
    obtain ⟨o', ho', hr⟩ := Option.map_eq_some_iff.mp h1.symm
    exact hcl.layer v o' i b hv ho' (by rw [hr]; exact hi)

theorem setData_file_steady {f f' : RamfsFile} (h : s.file? a = some f) :
    Steady s (s.setData a (.file f')) := by
  refine Steady.of_setData ?_
  rw [core_of_file? h]
  trivial

theorem setData_overlay_steady {o' : OverlayVnode} (h : s.overlay? a = some o)
    (hr : o'.layerRoots = o.layerRoots) : Steady s (s.setData a (.overlay o')) := by
  refine Steady.of_setData ?_
  rw [core_of_overlay? h]
  exact hr

/-! ### The vnode operations -/

/-- The call removed nothing and, where it returned a vnode, that vnode is live. -/
def Sound (s : State) (x : Except Err Addr × State) : Prop :=
  Steady s x.2 ∧ ∀ a, x.1 = .ok a → x.2.live a = true

section

variable (hc : Closed s) (hd : s.live dir = true)
include hc hd

theorem ramfsLookup_sound (name : Str) : Sound s (ramfsLookup dir name s) := by
  rcases h : ramfsLookup dir name s with ⟨r, s'⟩
  refine ⟨(RefsOnly.lookup h).steady, fun a ha => ?_⟩
  subst ha
  obtain ⟨hs, es, e, hes, hfind, rfl⟩ := ramfsLookup_ok h
  rw [hs]
  exact hc.entry dir es e hd hes (List.mem_of_find?_eq_some hfind)

theorem overlayLookup_sound (name : Str) : Sound s (overlayLookup A g dir name s) := by
  rcases h : overlayLookup A g dir name s with ⟨r, s'⟩
  cases overlayLookup_cases h with
  | failed hrefs => exact ⟨hrefs.steady, fun a ha => by cases ha⟩
  | found ho r1 hnew hroots =>
    refine ⟨r1.steady.trans (hnew.steady fun i a hi => ?_), fun a ha => ?_⟩
    · obtain ⟨root, es, e, hroot, hes, hmem, rfl⟩ := hroots i a hi
      rw [r1.live]
      exact hc.entry root es e (hc.layer dir _ i root hd ho hroot) hes hmem
    · cases ha
      rw [hnew.live]
      simp

theorem lookup_sound (name : Str) : Sound s ((fsOps A g).lookup dir name s) := by
  change Sound s (if isOverlay dir s then overlayLookup A g dir name s else ramfsLookup dir name s)
  split
  · exact overlayLookup_sound hc hd name
  · exact ramfsLookup_sound hc hd name

end

theorem ramfsMake_sound (type : VnodeType) (data : PrivateData) (hd : s.live dir = true)
    (hw : ∀ s : State, Wellborn s data.core) (name : Str) : Sound s (ramfsMake A type data dir name s) := by
  rcases h : ramfsMake A type data dir name s with ⟨r, s'⟩
  cases ramfsMake_cases hd h with
  | failed hs => exact ⟨hs.steady, fun a ha => by cases ha⟩
  | made hm =>
    refine ⟨hm.steady hd (hw s), fun b hb => ?_⟩
    cases hb
    rw [hm.live]
    simp

theorem ramfsCreate_sound (hd : s.live dir = true) (name : Str) :
    Sound s (ramfsCreate A dir name s) :=
  ramfsMake_sound .file (.file ⟨[], 0⟩) hd (fun _ => trivial) name

theorem ramfsMkdir_steady (hd : s.live dir = true) (name : Str) :
    Steady s (ramfsMkdir A dir name s).2 :=
  (ramfsMake_sound .directory (.dir ⟨[], 0⟩) hd (fun _ => rfl) name).1

theorem firstWritable_some {is : List (Fin maxLayers)} {i : Fin maxLayers} {root : Addr}
    (h : firstWritable g o is = some (i, root)) : g.writable i = true ∧ o.layerRoots i = some root := by
  obtain ⟨j, -, hj⟩ := List.exists_of_findSome?_eq_some h
  obtain ⟨a, ha, he⟩ := Option.map_eq_some_iff.mp hj
  cases he
  unfold writableRoot at ha
  split at ha
  · rename_i hw
    exact ⟨hw, ha⟩
  · cases ha

/-- What `overlay_create` does in a live directory. -/
inductive OverlayCreate (A : Allocator) (g : Layers) (dir : Addr) (name : Str) (s : State) : Except Err Addr × State → Prop
  | refused {e : Err} : OverlayCreate A g dir name s (.error e, s)
  | failed {o : OverlayVnode} {i : Fin maxLayers} {root : Addr} {r : Except Err Addr} {e : Err} {s₁ s₂ : State}
      (ho : s.overlay? dir = some o) (hw : firstWritable g o g.indices = some (i, root))
      (hreal : ramfsCreate A root name s = (r, s₁)) (hrefs : RefsOnly s₁ s₂) : OverlayCreate A g dir name s (.error e, s₂)
  | made {o : OverlayVnode} {i : Fin maxLayers} {root real vn : Addr} {s₁ s₂ s₃ : State} (ho : s.overlay? dir = some o)
      (hw : firstWritable g o g.indices = some (i, root)) (hreal : ramfsCreate A root name s = (.ok real, s₁))
      (hrefs : RefsOnly s₁ s₂) (hnew : NewOverlay (update (fun _ => none) i (some real)) s₂ vn s₃) :
      OverlayCreate A g dir name s (.ok vn, s₃)

theorem overlayCreate_cases (hd : s.live dir = true) (name : Str) :
    OverlayCreate A g dir name s (overlayCreate A g dir name s) := by
  unfold overlayCreate
  rw [touch_of_live hd]
  dsimp only
  split
  · exact .refused
  · rename_i o ho
    split
    · exact .refused
    · rename_i i root hw
      split
      · exact .failed ho hw ‹_› (RefsOnly.refl _)
      · rename_i real s1 hreal
        rcases hb : allocBlock A s1 with ⟨r, s2⟩
        have hr := RefsOnly.alloc hb
        cases r with
        | false => exact .failed ho hw hreal (hr.trans (RefsOnly.unref real s2))
        | true =>
          dsimp only
          split
          · rename_i s3 hn
            exact .failed ho hw hreal ((hr.trans (newVnode_refs hn)).trans (RefsOnly.unref real s3))
          · exact .made ho hw hreal hr (newVnode_overlay ‹_›)

theorem eq_of_only {i j : Fin maxLayers} {real a : Addr}
    (h : update (fun _ => none) i (some real) j = some a) : a = real := by
  by_cases hj : j = i
  · rw [hj, update_self] at h
    cases h
    rfl
  · rw [update_of_ne hj] at h
    cases h

section

variable (hc : Closed s) (hd : s.live dir = true)
include hc hd

theorem overlayCreate_sound (name : Str) : Sound s (overlayCreate A g dir name s) := by
  have hcases := overlayCreate_cases (A := A) (g := g) hd name
  generalize overlayCreate A g dir name s = r at hcases ⊢
  cases hcases with
  | refused => exact ⟨Steady.refl s, nofun⟩
  | failed ho hw hreal hrefs =>
    have h1 := ramfsCreate_sound (A := A) (hc.layer dir _ _ _ hd ho (firstWritable_some hw).2) name
    rw [hreal] at h1
    exact ⟨h1.1.trans hrefs.steady, nofun⟩
  | made ho hw hreal hrefs hnew =>
    have h1 := ramfsCreate_sound (A := A) (hc.layer dir _ _ _ hd ho (firstWritable_some hw).2) name
    rw [hreal] at h1
    refine ⟨(h1.1.trans hrefs.steady).trans (hnew.steady fun j a hj => ?_), fun a ha => ?_⟩
    · rw [eq_of_only hj]
      exact hrefs.live ▸ h1.2 _ rfl
    · cases ha
      rw [hnew.live]
      simp

theorem create_sound (name : Str) : Sound s ((fsOps A g).create dir name s) := by
  change Sound s (if isOverlay dir s then overlayCreate A g dir name s else ramfsCreate A dir name s)
  split
  · exact overlayCreate_sound hc hd name
  · exact ramfsCreate_sound hd name

theorem mkdir_steady (name : Str) : Steady s ((fsOps A g).mkdir dir name s).2 := by
  change Steady s (if isOverlay dir s then overlayMkdir A g dir name s else ramfsMkdir A dir name s).2
  split
  · unfold overlayMkdir
    rw [touch_of_live hd]
    dsimp only
    split
    · exact Steady.refl s
    · rename_i o ho
      split
      · exact Steady.refl s
      · rename_i i root hw
        exact ramfsMkdir_steady (hc.layer dir o i root hd ho (firstWritable_some hw).2) name
  · exact ramfsMkdir_steady hd name

end

theorem writeLoop_same (offset size : ℕ) (buf : ℕ → UInt8) (n : ℕ) {done : ℕ} {pages pages' : List (Option Page)}
    {r : Except Err Unit} (h : writeLoop A offset size buf n done pages s = (r, pages', s')) :
    ∃ k, s' = { s with clock := k } := by
  induction n generalizing done pages s with
  | zero =>
    cases h
    exact ⟨_, rfl⟩
  | succ n ih =>
    rw [writeLoop] at h
    split at h
    · dsimp only at h
      split at h
      · cases h
        exact ⟨_, rfl⟩
      · exact ih h
      · split at h
        · cases h
          exact ⟨_, rfl⟩
        · obtain ⟨k, hk⟩ := ih h
          exact ⟨k, hk⟩
    · cases h
      exact ⟨_, rfl⟩

theorem growPages_same {f : RamfsFile} {n : ℕ} {r : Except Err (List (Option Page))}
    (h : growPages A f n s = (r, s')) : ∃ k, s' = { s with clock := k } := by
  unfold growPages allocBlock at h
  split at h
  · cases hb : A.block s.clock <;> rw [hb] at h <;> cases h <;> exact ⟨_, rfl⟩
  · cases h
    exact ⟨_, rfl⟩

/-- A write touches one file's data and the clock. -/
theorem ramfsWrite_spec {node : Addr} {offset size : ℕ} {buf : ℕ → UInt8} {r : Except Err ℕ}
    (h : ramfsWrite A node offset buf size s = (r, s')) :
    (∃ k, s' = { s.touch node with clock := k }) ∨ ∃ f f' k, s.file? node = some f ∧
      s' = { s.touch node with clock := k }.setData node (.file f') := by
  unfold ramfsWrite at h
  dsimp only at h
  split at h
  · injection h with _ h
    exact Or.inl ⟨s.clock, h.symm⟩
  · rename_i f hf
    split at h
    · rename_i e s1 h1
      obtain ⟨k, hk⟩ := growPages_same h1
      injection h with _ h
      exact Or.inl ⟨k, by rw [← h, hk]⟩
    · rename_i pages s1 h1
      obtain ⟨k1, hk1⟩ := growPages_same h1
      split at h
      · rename_i e pages2 s2 h2
        obtain ⟨k2, hk2⟩ := writeLoop_same _ _ _ _ h2
        injection h with _ h
        exact Or.inr ⟨f, _, k2, hf, by rw [← h, hk2, hk1]⟩
      · rename_i pages2 s2 h2
        obtain ⟨k2, hk2⟩ := writeLoop_same _ _ _ _ h2
        injection h with _ h
        exact Or.inr ⟨f, _, k2, hf, by rw [← h, hk2, hk1]⟩

theorem ramfsWrite_steady (node : Addr) (offset size : ℕ) (buf : ℕ → UInt8) :
    Steady s (ramfsWrite A node offset buf size s).2 := by
  rcases h : ramfsWrite A node offset buf size s with ⟨r, s'⟩
  rcases ramfsWrite_spec h with ⟨k, hk⟩ | ⟨f, f', k, hf, hk⟩
  · subst hk
    exact Steady.of_body rfl fun _ _ => rfl
  · subst hk
    have h1 : Steady s { s.touch node with clock := k } := Steady.of_body rfl fun _ _ => rfl
    exact h1.trans (setData_file_steady hf)

theorem write_steady (node : Addr) (offset size : ℕ) (buf : ℕ → UInt8) :
    Steady s ((fsOps A g).write node offset buf size s).2 := by
  change Steady s (if isOverlay node s then overlayWrite A g node offset buf size s
    else ramfsWrite A node offset buf size s).2
  split
  · unfold overlayWrite
    dsimp only
    split
    · exact (RefsOnly.touch node s).steady
    · exact (RefsOnly.touch node s).steady.trans (ramfsWrite_steady _ _ _ _)
  · exact ramfsWrite_steady _ _ _ _

theorem ramfsRead_snd (node : Addr) (offset size : ℕ) (buf : ℕ → UInt8) :
    (ramfsRead node offset buf size s).2 = s.touch node := by
  unfold ramfsRead
  dsimp only
  split
  · rfl
  · split <;> rfl

theorem ramfsStat_snd (node : Addr) : (ramfsStat node s).2 = s.touch node := by
  unfold ramfsStat
  dsimp only
  split <;> rfl

theorem read_refs (node : Addr) (offset size : ℕ) (buf : ℕ → UInt8) :
    RefsOnly s ((fsOps A g).read node offset buf size s).2 := by
  change RefsOnly s (if isOverlay node s then overlayRead g node offset buf size s
    else ramfsRead node offset buf size s).2
  split
  · unfold overlayRead
    dsimp only
    split
    · exact RefsOnly.touch node s
    · rw [ramfsRead_snd]
      exact (RefsOnly.touch node s).trans (RefsOnly.touch _ _)
  · rw [ramfsRead_snd]
    exact RefsOnly.touch node s

theorem stat_refs (node : Addr) : RefsOnly s ((fsOps A g).stat node s).2 := by
  change RefsOnly s (if isOverlay node s then overlayStat g node s else ramfsStat node s).2
  split
  · unfold overlayStat
    dsimp only
    split
    · exact RefsOnly.touch node s
    · rw [ramfsStat_snd]
      exact (RefsOnly.touch node s).trans (RefsOnly.touch _ _)
  · rw [ramfsStat_snd]
    exact RefsOnly.touch node s

theorem ramfsReaddir_refs (dir : Addr) (offset : ℕ) : RefsOnly s (ramfsReaddir dir offset s).2 := by
  unfold ramfsReaddir
  dsimp only
  split
  · exact RefsOnly.touch dir s
  · split
    · exact RefsOnly.touch dir s
    · exact (RefsOnly.touch dir s).trans (RefsOnly.touch _ _)

/-- Building the merged list changes reference counts and the vnode's own cache. -/
theorem buildMergedList_spec {o' : OverlayVnode} (h : buildMergedList A g dir o s = (o', s')) :
    o'.layerRoots = o.layerRoots ∧ ∃ s₁, RefsOnly s s₁ ∧ (s' = s₁ ∨ s' = s₁.setData dir (.overlay o')) := by
  unfold buildMergedList at h
  split at h
  · cases h
    exact ⟨rfl, s, RefsOnly.refl s, Or.inl rfl⟩
  · split at h
    · cases h
      exact ⟨rfl, s, RefsOnly.refl s, Or.inr rfl⟩
    · rcases hb : allocBlock A s with ⟨r, s1⟩
      rw [hb] at h
      cases r with
      | false =>
        cases h
        exact ⟨rfl, s1, RefsOnly.alloc hb, Or.inr rfl⟩
      | true =>
        rcases hm : mergeLayers g o g.indices [] s1 with ⟨m, s2⟩
        simp only [hm] at h
        cases h
        exact ⟨rfl, s2, (RefsOnly.alloc hb).trans (mergeLayers_refs _ hm), Or.inr rfl⟩

theorem overlayReaddir_steady (dir : Addr) (offset : ℕ) : Steady s (overlayReaddir A g dir offset s).2 := by
  unfold overlayReaddir
  dsimp only
  split
  · exact (RefsOnly.touch dir s).steady
  · rename_i o ho
    rcases h : buildMergedList A g dir o (s.touch dir) with ⟨o', s'⟩
    obtain ⟨hr, s₁, r1, hs⟩ := buildMergedList_spec h
    have r2 := (RefsOnly.touch dir s).trans r1
    have hst : Steady s s' := by
      rcases hs with rfl | rfl
      · exact r2.steady
      · exact r2.steady.trans (setData_overlay_steady ((r1.overlay? dir).trans ho) hr)
    split <;> exact hst

theorem readdir_steady (dir : Addr) (offset : ℕ) : Steady s ((fsOps A g).readdir dir offset s).2 := by
  change Steady s (if isOverlay dir s then overlayReaddir A g dir offset s else ramfsReaddir dir offset s).2
  split
  · exact overlayReaddir_steady dir offset
  · exact (ramfsReaddir_refs dir offset).steady

end Tori.Fs
