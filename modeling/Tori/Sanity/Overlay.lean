import Tori.Spec.FsRun
import Tori.Sanity.Ramfs

/-! What the overlay's loops do to the vnode heap: they change reference counts and nothing else,
and the layer vnodes they collect are entries of the layer directories they started from. -/

namespace Tori.Fs

open Vfs State Function

variable {s s' s₁ s₂ s₃ : State} {A : Allocator} {g : Layers}

variable {a dir : Addr} {name : Str} {o : OverlayVnode}

section Ramfs

variable (h : isOverlay a s = false)

include h

theorem lookup_ramfs : (fsOps A g).lookup a name s = ramfsLookup a name s := if_neg (ne_true_of_eq_false h)

theorem create_ramfs : (fsOps A g).create a name s = ramfsCreate A a name s := if_neg (ne_true_of_eq_false h)

theorem mkdir_ramfs : (fsOps A g).mkdir a name s = ramfsMkdir A a name s := if_neg (ne_true_of_eq_false h)

theorem read_ramfs (offset : ℕ) (buf : ℕ → UInt8) (size : ℕ) :
    (fsOps A g).read a offset buf size s = ramfsRead a offset buf size s :=
  if_neg (ne_true_of_eq_false h)

theorem write_ramfs (offset : ℕ) (buf : ℕ → UInt8) (size : ℕ) :
    (fsOps A g).write a offset buf size s = ramfsWrite A a offset buf size s :=
  if_neg (ne_true_of_eq_false h)

theorem stat_ramfs : (fsOps A g).stat a s = ramfsStat a s := if_neg (ne_true_of_eq_false h)

end Ramfs

/-- All of a vnode but its reference count. -/
def State.body (s : State) (a : Addr) : Vnode := { s.core a with refCount := 0 }

theorem body_of_core (h : s'.core a = s.core a) : s'.body a = s.body a := by
  unfold State.body
  rw [h]

theorem type_of_body (h : s'.body a = s.body a) : (s'.vnodes a).type = (s.vnodes a).type := by
  have ht := congrArg Vnode.type h
  exact ht

theorem data_of_body (h : s'.body a = s.body a) :
    (s'.core a).privateData = (s.core a).privateData := by
  have hp := congrArg Vnode.privateData h
  exact hp

/-- Only reference counts differ. -/
structure RefsOnly (s s' : State) : Prop where
  live : s'.live = s.live
  body : ∀ a, s'.body a = s.body a

theorem RefsOnly.refl (s : State) : RefsOnly s s := ⟨rfl, fun _ => rfl⟩

theorem RefsOnly.trans (h : RefsOnly s₁ s₂) (h' : RefsOnly s₂ s₃) : RefsOnly s₁ s₃ :=
  ⟨h'.live.trans h.live, fun a => (h'.body a).trans (h.body a)⟩

theorem RefsOnly.touch (a : Addr) (s : State) : RefsOnly s (s.touch a) := ⟨rfl, fun _ => rfl⟩

theorem body_of_update {n : ℕ} (h : s'.core = update s.core a { s.core a with refCount := n }) (x : Addr) :
    s'.body x = s.body x := by
  unfold State.body
  rw [h]
  by_cases hx : x = a
  · subst hx
    simp
  · simp [hx]

theorem RefsOnly.unref (a : Addr) (s : State) : RefsOnly s (vnodeUnref a s) := ⟨rfl, body_of_update core_vnodeUnref⟩

theorem RefsOnly.ref (a : Addr) (s : State) : RefsOnly s (vnodeRef a s) := ⟨rfl, body_of_update core_vnodeRef⟩

variable {r : Bool} {i : Fin maxLayers} {real vn : Addr} {m m' : List MergedEntry}

theorem RefsOnly.alloc (h : allocBlock A s = (r, s')) : RefsOnly s s' := by
  cases h
  exact ⟨rfl, fun _ => rfl⟩

theorem RefsOnly.lookup {r : Except Err Addr} (h : ramfsLookup dir name s = (r, s')) :
    RefsOnly s s' := by
  have h2 : s' = s.touch dir := by
    rw [← @ramfsLookup_snd s dir name, h]
  rw [h2]
  exact RefsOnly.touch dir s

theorem RefsOnly.entries (h : RefsOnly s s') (a : Addr) : s'.entries a = s.entries a :=
  entries_congr (data_of_body (h.body a))

theorem RefsOnly.overlay? (h : RefsOnly s s') (a : Addr) : s'.overlay? a = s.overlay? a :=
  overlay?_congr (data_of_body (h.body a))

theorem findWhiteout_refs {wh : Str} (us : List (Fin maxLayers))
    (h : findWhiteout g o wh us s = (r, s')) : RefsOnly s s' := by
  induction us generalizing s with
  | nil =>
    injection h with _ h
    subst h
    exact RefsOnly.refl s
  | cons u us ih =>
    rw [findWhiteout] at h
    split at h
    · exact ih h
    · split at h
      · rename_i a s1 h1
        cases h
        exact (RefsOnly.lookup h1).trans (RefsOnly.unref a s1)
      · rename_i e s1 h1
        exact (RefsOnly.lookup h1).trans (ih h)

/-- `real` is an entry of the directory that layer `i` contributes. -/
def EntryOf (s : State) (o : OverlayVnode) (i : Fin maxLayers) (real : Addr) : Prop :=
  ∃ root es e, o.layerRoots i = some root ∧ s.entries root = some es ∧ e ∈ es ∧ e.vnode = real

theorem EntryOf.of_lookup {root : Addr}
    (hroot : o.layerRoots i = some root) (h : ramfsLookup root name s = (.ok real, s')) : EntryOf s o i real := by
  obtain ⟨_, es, e, hes, hfind, hreal⟩ := ramfsLookup_ok h
  exact ⟨root, es, e, hroot, hes, List.mem_of_find?_eq_some hfind, hreal⟩

theorem EntryOf.congr (h : RefsOnly s s')
    (he : EntryOf s' o i real) : EntryOf s o i real := by
  obtain ⟨root, es, e, hroot, hes, hmem, hreal⟩ := he
  exact ⟨root, es, e, hroot, (h.entries root) ▸ hes, hmem, hreal⟩

theorem collectLayers_spec (is : List (Fin maxLayers)) {f f' : Found}
    (h : collectLayers g o name is f s = (f', s')) :
    RefsOnly s s' ∧ ∀ i real, f'.layerRoots i = some real → f.layerRoots i = some real ∨ EntryOf s o i real := by
  induction is generalizing s f with
  | nil =>
    injection h with h1 h2
    subst h1 h2
    exact ⟨RefsOnly.refl s, fun _ _ h => Or.inl h⟩
  | cons i is ih =>
    rw [collectLayers] at h
    split at h
    · exact ih h
    · rename_i lroot hroot
      split at h
      · rename_i s1 h1
        cases h
        exact ⟨findWhiteout_refs _ h1, fun _ _ h => Or.inl h⟩
      · rename_i s1 h1
        have r1 := findWhiteout_refs _ h1
        split at h
        · rename_i e s2 h2
          obtain ⟨r3, hf⟩ := ih h
          have r2 := r1.trans (RefsOnly.lookup h2)
          exact ⟨r2.trans r3, fun j real hj => (hf j real hj).imp_right (EntryOf.congr r2)⟩
        · rename_i real s2 h2
          have r2 := r1.trans (RefsOnly.lookup h2)
          have hput : ∀ j a, update f.layerRoots i (some real) j = some a →
              f.layerRoots j = some a ∨ EntryOf s o j a := by
            intro j a hj
            by_cases hji : j = i
            · subst hji
              rw [update_self] at hj
              cases hj
              exact Or.inr ((EntryOf.of_lookup hroot h2).congr r1)
            · rw [update_of_ne hji] at hj
              exact Or.inl hj
          dsimp only at h
          split at h
          · cases h
            exact ⟨r2, hput⟩
          · split at h
            · obtain ⟨r3, hf⟩ := ih h
              refine ⟨r2.trans r3, fun j a hj => ?_⟩
              rcases hf j a hj with hj | hj
              · exact hput j a hj
              · exact Or.inr (hj.congr r2)
            · cases h
              exact ⟨r2.trans (RefsOnly.unref real s2), fun _ _ h => Or.inl h⟩

theorem unrefRoots_refs (roots : Fin maxLayers → Option Addr) (is : List (Fin maxLayers)) (s : State) :
    RefsOnly s (unrefRoots roots is s) := by
  induction is generalizing s with
  | nil => exact RefsOnly.refl s
  | cons i is ih =>
    rw [unrefRoots]
    split
    · exact ih s
    · exact (RefsOnly.unref _ s).trans (ih _)

theorem refRoots_refs (roots : Fin maxLayers → Option Addr) (is : List (Fin maxLayers)) (s : State) :
    RefsOnly s (refRoots roots is s) := by
  induction is generalizing s with
  | nil => exact RefsOnly.refl s
  | cons i is ih =>
    rw [refRoots]
    split
    · exact ih s
    · exact (RefsOnly.ref _ s).trans (ih _)

theorem mergeEntries_refs {li : Fin maxLayers} (ds : List Dirent)
    (h : mergeEntries g o li ds m s = (m', s')) : RefsOnly s s' := by
  induction ds generalizing s m with
  | nil =>
    injection h with _ h
    subst h
    exact RefsOnly.refl s
  | cons d ds ih =>
    rw [mergeEntries] at h
    split at h
    · exact ih h
    · split at h
      · rename_i s1 h1
        exact (findWhiteout_refs _ h1).trans (ih h)
      · rename_i s1 h1
        split at h
        · exact (findWhiteout_refs _ h1).trans (ih h)
        · exact (findWhiteout_refs _ h1).trans (ih h)

theorem mergeLayers_refs (is : List (Fin maxLayers))
    (h : mergeLayers g o is m s = (m', s')) : RefsOnly s s' := by
  induction is generalizing s m with
  | nil =>
    injection h with _ h
    subst h
    exact RefsOnly.refl s
  | cons i is ih =>
    rw [mergeLayers] at h
    split at h
    · exact ih h
    · rename_i root _
      rcases h1 : mergeEntries g o i (dirents root s) m (s.touch root) with ⟨m1, s1⟩
      rw [h1] at h
      exact ((RefsOnly.touch root s).trans (mergeEntries_refs _ h1)).trans (ih h)

/-! ### Lookup and create -/

/-- A fresh overlay vnode over `roots`. -/
structure NewOverlay (roots : Fin maxLayers → Option Addr) (s : State) (vn : Addr) (s' : State) : Prop where
  fresh : s.live vn = false
  live : s'.live = update s.live vn true
  stale : s'.stale = s.stale
  node : (s'.core vn).privateData = .overlay ⟨roots, [], false⟩
  other : ∀ x, x ≠ vn → s'.core x = s.core x

theorem newVnode_overlay {type : VnodeType} {roots : Fin maxLayers → Option Addr}
    (h : newVnode A ⟨type, .overlay ⟨roots, [], false⟩, 0, none⟩ s = (some vn, s')) :
    NewOverlay roots s vn s' := by
  obtain ⟨hf, hl, hst, hc⟩ := newVnode_some h
  exact ⟨hf, hl, hst, by rw [hc]; simp [Vnode.core, PrivateData.core], fun x hx => by rw [hc]; simp [hx]⟩

theorem newVnode_refs {v : Vnode} (h : newVnode A v s = (none, s')) : RefsOnly s s' := by
  unfold newVnode at h
  split at h
  · cases h
    exact ⟨rfl, fun _ => rfl⟩
  · cases h

inductive LookupCase (dir : Addr) (s : State) : Except Err Addr × State → Prop
  | found {o : OverlayVnode} {s₁ s' : State} {roots : Fin maxLayers → Option Addr} {vn : Addr}
      (ho : s.overlay? dir = some o) (hrefs : RefsOnly s s₁) (hnew : NewOverlay roots s₁ vn s')
      (hroots : ∀ i real, roots i = some real → EntryOf s o i real) : LookupCase dir s (.ok vn, s')
  | failed {e : Err} {s' : State} (hrefs : RefsOnly s s') : LookupCase dir s (.error e, s')

theorem overlayLookup_cases {x : Except Err Addr × State} (h : overlayLookup A g dir name s = x) :
    LookupCase dir s x := by
  subst h
  unfold overlayLookup
  dsimp only
  split
  · exact .failed (RefsOnly.touch dir s)
  · rename_i o ho
    rcases h1 : allocBlock A (s.touch dir) with ⟨r, s1⟩
    have r1 := (RefsOnly.touch dir s).trans (RefsOnly.alloc h1)
    cases r with
    | false => exact .failed r1
    | true =>
      rcases h2 : collectLayers g o name g.indices ⟨none, fun _ => none⟩ s1 with ⟨⟨ty, roots⟩, s2⟩
      obtain ⟨r2, hroots⟩ := collectLayers_spec _ h2
      have r2 := r1.trans r2
      cases ty with
      | none =>
        simp only [h2]
        exact .failed r2
      | some ty =>
        simp only [h2]
        split
        · rename_i s3 h3
          exact .failed ((r2.trans (newVnode_refs h3)).trans (unrefRoots_refs roots _ s3))
        · rename_i vn' s3 h3
          refine .found ho r2 (newVnode_overlay h3) fun i real hi => ?_
          rcases hroots i real hi with hn | he
          · cases hn
          · exact he.congr r1

end Tori.Fs
