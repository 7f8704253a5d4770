import Tori.Spec.OverlayDir
import Tori.Proofs.OverlayReadOnly

/-! What an overlay directory shows. While its layer directories are allocated, the loops of `overlay_lookup`,
`overlay_unlink` and `build_merged_list` are searches of the layers: a name stands for its entry in the topmost layer that
has it, unless a writable layer above holds its whiteout. -/

namespace Tori.Fs

open Vfs State Function

variable {s s' : State} {A : Allocator} {g : Layers} {a dir root : Addr} {roots : Fin maxLayers → Option Addr}
  {o : OverlayVnode} {name : Str} {e : RamfsEntry}

/-! ### Names -/

theorem hasWhiteoutPrefix_iff : hasWhiteoutPrefix name = true ↔ name.take 4 = whiteoutPrefix := by
  rw [hasWhiteoutPrefix, List.isPrefixOf_iff_prefix, List.prefix_iff_eq_take]
  exact eq_comm

theorem hasWhiteoutPrefix_copyName : hasWhiteoutPrefix (copyName name) = hasWhiteoutPrefix name := by
  rw [Bool.eq_iff_iff, hasWhiteoutPrefix_iff, hasWhiteoutPrefix_iff, copyName, List.take_take]
  rfl

theorem hasWhiteoutPrefix_make : hasWhiteoutPrefix (makeWhiteoutName name) = true := by
  rw [hasWhiteoutPrefix_iff, makeWhiteoutName, List.take_take]
  rfl

theorem copyName_of_le (h : name.length ≤ 255) : copyName name = name := List.take_of_length_le h

/-! ### Searching the layers -/

def entryAt (s : State) (dir : Addr) (name : Str) : Option RamfsEntry :=
  ((s.entries dir).getD []).find? fun e => e.name = name

theorem ramfsLookup_miss (hl : s.live dir = true) (h : entryAt s dir name = none) :
    ∃ e, ramfsLookup dir name s = (.error e, s) := by
  rcases hlk : ramfsLookup dir name s with ⟨r, s'⟩
  have hs : s' = s := by
    have h2 := @ramfsLookup_snd s dir name
    rw [hlk, touch_of_live hl] at h2
    exact h2
  cases r with
  | error e => exact ⟨e, by rw [hs]⟩
  | ok a =>
    obtain ⟨-, es, e, hes, hf, -⟩ := ramfsLookup_ok hlk
    rw [entryAt, hes] at h
    have hnone : es.find? (fun e => e.name = name) = none := h
    rw [hf] at hnone
    cases hnone

theorem ramfsLookup_hit (hl : s.live dir = true)
    (h : entryAt s dir name = some e) : ramfsLookup dir name s = (.ok e.vnode, s) := by
  unfold entryAt at h
  cases hes : s.entries dir with
  | none =>
    rw [hes] at h
    cases h
  | some es =>
    rw [hes] at h
    rw [ramfsLookup_eq hl hes]
    have hf : es.find? (fun e => e.name = name) = some e := h
    rw [hf]

variable {i : Fin maxLayers} {is : List (Fin maxLayers)}

theorem layerEntry_none (h : roots i = none) : layerEntry s roots name i = none := by
  rw [layerEntry, h]
  rfl

theorem layerEntry_some (h : roots i = some root) : layerEntry s roots name i = entryAt s root name := by
  rw [layerEntry, h, Option.bind_some, entryAt]
  cases s.entries root <;> rfl

theorem RefsOnly.layerEntry (h : RefsOnly s s') (i : Fin maxLayers) : layerEntry s' roots name i = layerEntry s roots name i := by
  unfold Fs.layerEntry
  congr 1
  funext a
  rw [h.entries]

theorem RefsOnly.whiteoutIn (h : RefsOnly s s') (us : List (Fin maxLayers)) :
    whiteoutIn g s' roots name us = whiteoutIn g s roots name us := by
  unfold Fs.whiteoutIn
  simp only [h.layerEntry]

theorem RefsOnly.visibleType (h : RefsOnly s s') (is : List (Fin maxLayers)) :
    visibleType g s' roots name is = visibleType g s roots name is := by
  unfold Fs.visibleType
  simp only [h.layerEntry, h.whiteoutIn, type_of_body (h.body _)]

/-- What `overlay_lookup` finds in the layers, and the vnode that then loses a reference: a whiteout, or a file below a
directory. -/
def gather (g : Layers) (s : State) (roots : Fin maxLayers → Option Addr) (name : Str) :
    List (Fin maxLayers) → Found → Found × Option Addr
  | [], f => (f, none)
  | i :: is, f =>
    if (roots i).isNone then gather g s roots name is f
    else
      match whiteoutIn g s roots name (g.above i), layerEntry s roots name i with
      | some wh, _ => (f, some wh.vnode)
      | none, none => gather g s roots name is f
      | none, some e =>
        match f.type.getD (s.vnodes e.vnode).type with
        | .file => (⟨some .file, update f.layerRoots i (some e.vnode)⟩, none)
        | .directory =>
          if (s.vnodes e.vnode).type = .directory then
            gather g s roots name is ⟨some .directory, update f.layerRoots i (some e.vnode)⟩
          else (⟨some .directory, f.layerRoots⟩, some e.vnode)

theorem RefsOnly.gather (h : RefsOnly s s') (is : List (Fin maxLayers)) (f : Found) :
    gather g s' roots name is f = gather g s roots name is f := by
  induction is generalizing f with
  | nil => rfl
  | cons i is ih => simp only [Fs.gather, ih, h.layerEntry, h.whiteoutIn, type_of_body (h.body _)]

def dropRef (x : Option Addr) (s : State) : State := x.elim s fun a => vnodeUnref a s

theorem RefsOnly.dropRef (x : Option Addr) (s : State) : RefsOnly s (dropRef x s) ∧ (Fs.dropRef x s).clock = s.clock := by
  cases x with
  | none => exact ⟨RefsOnly.refl s, rfl⟩
  | some a => exact ⟨RefsOnly.unref a s, rfl⟩

/-- Whiteouts above a layer are above the layers below it. -/
theorem whiteoutIn_above {j : Fin maxLayers} (hij : i < j) (h : (whiteoutIn g s roots name (g.above i)).isSome = true) :
    (whiteoutIn g s roots name (g.above j)).isSome = true := by
  unfold whiteoutIn at h ⊢
  rw [List.findSome?_isSome_iff] at h ⊢
  obtain ⟨u, hu, hwh⟩ := h
  refine ⟨u, ?_, hwh⟩
  obtain ⟨hmem, hlt⟩ := List.mem_filter.mp hu
  exact List.mem_filter.mpr ⟨hmem, decide_eq_true ((of_decide_eq_true hlt).trans hij)⟩

theorem visibleType_covered (hsorted : (i :: is).Pairwise (· < ·))
    (h : (whiteoutIn g s roots name (g.above i)).isSome = true) : visibleType g s roots name (i :: is) = none := by
  refine List.findSome?_eq_none_iff.mpr fun j hj => if_pos ?_
  rcases List.mem_cons.mp hj with rfl | hj
  · exact h
  · exact whiteoutIn_above (List.rel_of_pairwise_cons hsorted hj) h

theorem indices_sorted (g : Layers) : g.indices.Pairwise (· < ·) := (List.pairwise_lt_finRange maxLayers).filter _

/-- A directory that was found above stays one; otherwise the topmost layer that shows the name gives the type. -/
theorem gather_type (is : List (Fin maxLayers)) (hsorted : is.Pairwise (· < ·)) (f : Found) :
    (f.type = some .directory → (gather g s roots name is f).1.type = some .directory) ∧
      (f.type = none → (gather g s roots name is f).1.type = visibleType g s roots name is) := by
  induction is generalizing f with
  | nil => exact ⟨id, id⟩
  | cons i is ih =>
    have hrest := ih hsorted.of_cons
    rw [gather]
    split
    · rename_i hroot
      have hskip : visibleType g s roots name (i :: is) = visibleType g s roots name is := by
        rw [visibleType, List.findSome?_cons, layerEntry_none (Option.isNone_iff_eq_none.mp hroot), Option.map_none, ite_self]
        rfl
      rw [hskip]
      exact hrest f
    · split
      · rename_i wh hwh
        rw [visibleType_covered hsorted (by rw [hwh]; rfl)]
        exact ⟨id, id⟩
      · rename_i hwh hentry
        rw [visibleType, List.findSome?_cons, hwh, hentry]
        exact hrest f
      · rename_i e hwh hentry
        have hfirst : visibleType g s roots name (i :: is) = some (s.vnodes e.vnode).type := by
          rw [visibleType, List.findSome?_cons, hwh, hentry]
          rfl
        rw [hfirst]
        split
        · rename_i hfile
          refine ⟨fun hdir => ?_, fun hnone => ?_⟩
          · rw [hdir] at hfile
            cases hfile
          · rw [hnone] at hfile
            exact congrArg some hfile.symm
        · rename_i hdirectory
          have hsome : f.type = none → some VnodeType.directory = some (s.vnodes e.vnode).type := by
            intro hnone
            rw [hnone] at hdirectory
            exact congrArg some hdirectory.symm
          split
          · have hkept := (hrest ⟨some .directory, update f.layerRoots i (some e.vnode)⟩).1 rfl
            exact ⟨fun _ => hkept, fun hnone => hkept.trans (hsome hnone)⟩
          · exact ⟨fun _ => rfl, hsome⟩

section Live

variable (hlive : ∀ i a, o.layerRoots i = some a → s.live a = true)

include hlive

theorem findWhiteout_eq (us : List (Fin maxLayers)) : findWhiteout g o (makeWhiteoutName name) us s =
    match whiteoutIn g s o.layerRoots name us with
    | none => (false, s)
    | some e => (true, vnodeUnref e.vnode s) := by
  induction us with
  | nil => rfl
  | cons u us ih =>
    rw [findWhiteout, whiteoutIn, List.findSome?_cons, writableRoot]
    cases hw : g.writable u with
    | false => exact ih
    | true =>
      rw [if_pos rfl, if_pos rfl]
      cases hr : o.layerRoots u with
      | none =>
        rw [layerEntry_none hr]
        exact ih
      | some root =>
        rw [layerEntry_some hr]
        cases he : entryAt s root (makeWhiteoutName name) with
        | none =>
          obtain ⟨err, hlk⟩ := ramfsLookup_miss (hlive u root hr) he
          dsimp only
          rw [hlk]
          exact ih
        | some e =>
          dsimp only
          rw [ramfsLookup_hit (hlive u root hr) he]

theorem collectLayers_eq (is : List (Fin maxLayers)) (f : Found) : collectLayers g o name is f s =
    ((gather g s o.layerRoots name is f).1, dropRef (gather g s o.layerRoots name is f).2 s) := by
  induction is generalizing f with
  | nil => rfl
  | cons i is ih =>
    rw [collectLayers, gather]
    cases hr : o.layerRoots i with
    | none => exact ih f
    | some root =>
      rw [if_neg (by simp), layerEntry_some hr]
      rw [findWhiteout_eq hlive]
      cases whiteoutIn g s o.layerRoots name (g.above i) with
      | some wh => rfl
      | none =>
        cases he : entryAt s root name with
        | none =>
          obtain ⟨err, hlk⟩ := ramfsLookup_miss (hlive i root hr) he
          dsimp only
          rw [hlk]
          exact ih f
        | some e =>
          dsimp only
          rw [ramfsLookup_hit (hlive i root hr) he]
          dsimp only
          cases f.type.getD (s.vnodes e.vnode).type with
          | file => rfl
          | directory =>
            by_cases hty : (s.vnodes e.vnode).type = .directory
            · simp only [if_pos hty]
              exact ih _
            · simp only [if_neg hty]
              rfl

end Live

/-- The topmost entry `name` of the layers, with its layer and directory. -/
def topEntry (s : State) (o : OverlayVnode) (name : Str) (is : List (Fin maxLayers)) :
    Option (Fin maxLayers × Addr × RamfsEntry) :=
  is.findSome? fun i => (o.layerRoots i).bind fun root => (entryAt s root name).map fun e => (i, root, e)

theorem unlinkLayers_eq (is : List (Fin maxLayers))
    (hlive : ∀ i a, o.layerRoots i = some a → s.live a = true) :
    unlinkLayers A g o name is s = match topEntry s o name is with
      | none => (.error .eNotFound, s)
      | some (i, root, e) =>
        if g.writable i then ramfsUnlink root name (vnodeUnref e.vnode s)
        else makeWhiteout A g o i name (vnodeUnref e.vnode s) := by
  induction is with
  | nil => rfl
  | cons i is ih =>
    rw [unlinkLayers, topEntry, List.findSome?_cons]
    cases hr : o.layerRoots i with
    | none =>
      exact ih
    | some root =>
      dsimp only [Option.bind_some]
      cases he : entryAt s root name with
      | none =>
        obtain ⟨err, hlk⟩ := ramfsLookup_miss (hlive i root hr) he
        rw [hlk]
        exact ih
      | some e =>
        rw [ramfsLookup_hit (hlive i root hr) he]
        rfl

theorem topEntry_some (h : topEntry s o name is = some (i, root, e)) :
    o.layerRoots i = some root ∧ entryAt s root name = some e := by
  obtain ⟨j, -, hj⟩ := List.exists_of_findSome?_eq_some h
  obtain ⟨r, hr, hj⟩ := Option.bind_eq_some_iff.mp hj
  obtain ⟨e', he', heq⟩ := Option.map_eq_some_iff.mp hj
  cases heq
  exact ⟨hr, he'⟩

/-- The answer of `overlay_lookup` once it has its buffer. -/
theorem overlayLookup_eq (hdir : s.live dir = true) (ho : s.overlay? dir = some o)
    (hlive : ∀ i a, o.layerRoots i = some a → s.live a = true) (hblock : A.block s.clock = true) :
    overlayLookup A g dir name s = match gather g s o.layerRoots name g.indices ⟨none, fun _ => none⟩ with
      | (⟨none, _⟩, x) => (.error .eNotFound, dropRef x { s with clock := s.clock + 1 })
      | (⟨some type, roots⟩, x) =>
        match newVnode A ⟨type, .overlay ⟨roots, [], false⟩, 0, none⟩ (dropRef x { s with clock := s.clock + 1 }) with
        | (none, s) => (.error .eNoSpace, unrefRoots roots g.indices s)
        | (some vn, s) => (.ok vn, s) := by
  set s₁ : State := { s with clock := s.clock + 1 } with hs₁
  have hr₁ : RefsOnly s s₁ := ⟨rfl, fun _ => rfl⟩
  have halloc : allocBlock A s = (true, s₁) := by rw [allocBlock, hblock]
  unfold overlayLookup
  rw [touch_of_live hdir]
  simp only [ho, halloc]
  rw [collectLayers_eq (s := s₁) hlive, hr₁.gather]
  rcases gather g s o.layerRoots name g.indices ⟨none, fun _ => none⟩ with ⟨⟨type, roots⟩, x⟩
  cases type <;> rfl

theorem newVnode_of_some {v : Vnode} (h : A.vnode s.clock s.live = some a) : newVnode A v s =
    (some a, { s with clock := s.clock + 1, live := update s.live a true, vnodes := update s.vnodes a v }) := by
  unfold newVnode
  rw [h]

theorem lookupType_eq (name : Str) (hdir : s.live dir = true) (ho : s.overlay? dir = some o)
    (hlive : ∀ i a, o.layerRoots i = some a → s.live a = true) (hblock : A.block s.clock = true)
    (hvn : (A.vnode (s.clock + 1) s.live).isSome = true) :
    lookupType A g dir name s = visibleType g s o.layerRoots name g.indices := by
  have htype : (gather g s o.layerRoots name g.indices ⟨none, fun _ => none⟩).1.type = _ :=
    (gather_type g.indices (indices_sorted g) _).2 rfl
  rw [← htype, lookupType, overlayLookup_eq hdir ho hlive hblock]
  rcases gather g s o.layerRoots name g.indices ⟨none, fun _ => none⟩ with ⟨⟨type, roots⟩, x⟩
  cases type with
  | none => rfl
  | some type =>
    obtain ⟨a, ha⟩ := Option.isSome_iff_exists.1 hvn
    obtain ⟨hr, hclock⟩ := RefsOnly.dropRef x { s with clock := s.clock + 1 }
    have hnew : A.vnode (dropRef x { s with clock := s.clock + 1 }).clock (dropRef x { s with clock := s.clock + 1 }).live =
        some a := by rw [hclock, hr.live, ha]
    dsimp only
    rw [newVnode_of_some hnew]
    dsimp only
    rw [update_self]

/-! ### The merged list -/

theorem listed_append (merged : List MergedEntry) (m : MergedEntry) :
    listed (merged ++ [m]) name = listed merged name ++ if m.name = name then [m] else [] := by
  unfold listed
  rw [List.filter_append, List.filter_cons, List.filter_nil]
  by_cases h : m.name = name <;> simp [h]

theorem any_listed (merged : List MergedEntry) : (merged.any fun m => m.name = name) = true ↔ listed merged name ≠ [] := by
  rw [List.any_eq_true, listed, ne_eq, List.filter_eq_nil_iff]
  push Not
  rfl

/-- Names that are listed keep their entry; the others get the first one of `ds`, unless they are reserved or there is a
whiteout. -/
def MergesTo (g : Layers) (s : State) (roots : Fin maxLayers → Option Addr) (li : Fin maxLayers) (ds : List Dirent)
    (merged : List MergedEntry) (x : List MergedEntry × State) : Prop :=
  RefsOnly s x.2 ∧ ∀ name, listed x.1 name =
    if listed merged name = [] ∧ hasWhiteoutPrefix name = false ∧ whiteoutIn g s roots name (g.above li) = none then
      (ds.find? fun d => d.name = name).toList.map fun d => ⟨d.name, d.type⟩
    else listed merged name

theorem MergesTo.skip {li : Fin maxLayers} {d : Dirent} {ds : List Dirent} {merged : List MergedEntry}
    {x : List MergedEntry × State} (hr : RefsOnly s s') (h : MergesTo g s' roots li ds merged x)
    (hskip : ¬ (listed merged d.name = [] ∧ hasWhiteoutPrefix d.name = false ∧
      whiteoutIn g s roots d.name (g.above li) = none)) : MergesTo g s roots li (d :: ds) merged x := by
  refine ⟨hr.trans h.1, fun name => ?_⟩
  rw [h.2 name, hr.whiteoutIn, List.find?_cons]
  by_cases hname : d.name = name
  · subst hname
    rw [if_neg hskip, if_neg hskip]
  · rw [decide_eq_false hname]

theorem mergeEntries_listed (hlive : ∀ i a, o.layerRoots i = some a → s.live a = true) (li : Fin maxLayers)
    (ds : List Dirent) (hds : ∀ d ∈ ds, d.name.length ≤ 255) (merged : List MergedEntry) :
    MergesTo g s o.layerRoots li ds merged (mergeEntries g o li ds merged s) := by
  induction ds generalizing s merged with
  | nil =>
    refine ⟨RefsOnly.refl s, fun name => ?_⟩
    split_ifs with h
    · exact h.1
    · rfl
  | cons d ds ih =>
    have hrest := fun s hl merged => ih (s := s) hl (fun d hd => hds d (List.mem_cons_of_mem _ hd)) merged
    rw [mergeEntries, findWhiteout_eq hlive]
    by_cases hpre : hasWhiteoutPrefix d.name = true
    · rw [if_pos hpre]
      exact (hrest s hlive merged).skip (RefsOnly.refl s) fun h => by rw [hpre] at h; cases h.2.1
    · rw [if_neg hpre]
      cases hwh : whiteoutIn g s o.layerRoots d.name (g.above li) with
      | some wh =>
        have hnext := hrest (vnodeUnref wh.vnode s) hlive merged
        exact hnext.skip (RefsOnly.unref wh.vnode s) fun h => by rw [hwh] at h; cases h.2.2
      | none =>
        by_cases hseen : (merged.any fun m => m.name = d.name) = true
        · simp only [hseen, if_true]
          exact (hrest s hlive merged).skip (RefsOnly.refl s) fun h => (any_listed merged).mp hseen h.1
        · simp only [hseen]
          rw [any_listed, not_not] at hseen
          obtain ⟨hr, hlist⟩ := hrest s hlive (merged ++ [⟨copyName d.name, d.type⟩])
          refine ⟨hr, fun name => (hlist name).trans ?_⟩
          rw [listed_append, copyName_of_le (hds d List.mem_cons_self), List.find?_cons]
          by_cases hname : d.name = name
          · subst hname
            simp [hseen, hwh, hpre]
          · simp [hname]

theorem dirents_eq {es : List RamfsEntry} (hes : s.entries a = some es) (hlen : ∀ e ∈ es, e.name.length ≤ 255) :
    dirents a s = es.map fun e => ⟨e.name, (s.vnodes e.vnode).type⟩ := by
  obtain ⟨d, hd, rfl⟩ := Option.map_eq_some_iff.mp hes
  unfold dirents
  simp only [hd]
  refine List.map_congr_left fun e he => ?_
  rw [copyName_of_le (hlen e he)]

/-- The layer directories hold proper names. -/
def ShortNames (roots : Fin maxLayers → Option Addr) (s : State) : Prop :=
  ∀ i a es e, roots i = some a → s.entries a = some es → e ∈ es → e.name.length ≤ 255

theorem RefsOnly.shortNames (h : RefsOnly s s') (hs : ShortNames roots s) : ShortNames roots s' := by
  intro i a es e hi hes he
  rw [h.entries] at hes
  exact hs i a es e hi hes he

/-- `readdir` of a layer and `lookup` in it agree. -/
theorem find?_dirents (name : Str) (hroot : roots i = some root) (hshort : ShortNames roots s) :
    ((dirents root s).find? fun d => d.name = name) =
      (layerEntry s roots name i).map fun e => ⟨name, (s.vnodes e.vnode).type⟩ := by
  rw [layerEntry_some hroot, entryAt]
  cases hes : s.entries root with
  | none =>
    rw [State.entries, Option.map_eq_none_iff] at hes
    rw [dirents, hes]
    rfl
  | some es =>
    rw [dirents_eq hes fun e he => hshort i root es e hroot hes he, List.find?_map, Option.getD_some]
    cases hfind : es.find? fun e => e.name = name with
    | none => simp [hfind]
    | some e =>
      have hname := List.find?_some hfind
      simp only [decide_eq_true_eq] at hname
      simp [hfind, hname]

theorem dirents_short (root : Addr) (s : State) : ∀ d ∈ dirents root s, d.name.length ≤ 255 := by
  unfold dirents
  split
  · exact fun d hd => nomatch hd
  · intro d hd
    obtain ⟨e, -, rfl⟩ := List.mem_map.mp hd
    exact List.length_take_le _ _

theorem mergeLayers_listed (hlive : ∀ i a, o.layerRoots i = some a → s.live a = true)
    (hshort : ShortNames o.layerRoots s) (is : List (Fin maxLayers)) (merged : List MergedEntry) :
    RefsOnly s (mergeLayers g o is merged s).2 ∧ ∀ name, listed (mergeLayers g o is merged s).1 name =
      if listed merged name = [] ∧ hasWhiteoutPrefix name = false then
        (visibleType g s o.layerRoots name is).toList.map fun type => ⟨name, type⟩
      else listed merged name := by
  induction is generalizing s merged with
  | nil =>
    refine ⟨RefsOnly.refl s, fun name => ?_⟩
    split_ifs with h
    · exact h.1
    · rfl
  | cons i is ih =>
    rw [mergeLayers]
    cases hroot : o.layerRoots i with
    | none =>
      obtain ⟨hr, hlist⟩ := ih hlive hshort merged
      refine ⟨hr, fun name => (hlist name).trans ?_⟩
      rw [visibleType, visibleType, List.findSome?_cons, layerEntry_none hroot, Option.map_none, ite_self]
    | some root =>
      dsimp only
      rw [touch_of_live (hlive i root hroot)]
      have hmerge := mergeEntries_listed (g := g) hlive i (dirents root s) (dirents_short root s) merged
      generalize mergeEntries g o i (dirents root s) merged s = x at hmerge ⊢
      obtain ⟨merged₁, s₁⟩ := x
      obtain ⟨hr₁, hlist₁⟩ := hmerge
      obtain ⟨hr₂, hlist⟩ := ih (fun j a hj => by rw [hr₁.live]; exact hlive j a hj) (hr₁.shortNames hshort) merged₁
      refine ⟨hr₁.trans hr₂, fun name => (hlist name).trans ?_⟩
      rw [hlist₁ name, hr₁.visibleType, find?_dirents name hroot hshort]
      by_cases hm : listed merged name = []
      · cases hp : hasWhiteoutPrefix name with
        | false =>
          cases hwh : whiteoutIn g s o.layerRoots name (g.above i) <;> cases he : layerEntry s o.layerRoots name i <;>
            simp [visibleType, hm, hwh, he]
        | true => simp [hm]
      · simp [hm]


theorem visibleType_empty (hshort : ShortNames o.layerRoots s) (htotal : totalEntries g o s = 0) :
    visibleType g s o.layerRoots name g.indices = none := by
  refine List.findSome?_eq_none_iff.mpr fun i hi => ?_
  have hlen := List.sum_eq_zero_iff.1 htotal _ (List.mem_map_of_mem hi)
  cases hroot : o.layerRoots i with
  | none => rw [layerEntry_none hroot, Option.map_none, ite_self]
  | some root =>
    rw [hroot, Option.elim_some, List.length_eq_zero_iff] at hlen
    have hfind := find?_dirents name hroot hshort
    rw [hlen, List.find?_nil, eq_comm, Option.map_eq_none_iff] at hfind
    rw [hfind, Option.map_none, ite_self]

/-- The list that is made, as long as memory lasts. -/
theorem buildMergedList_listed (dir : Addr) (hblock : A.block s.clock = true) (hcached : o.cached = false)
    (hlive : ∀ i a, o.layerRoots i = some a → s.live a = true) (hshort : ShortNames o.layerRoots s) :
    ∃ merged s₁, RefsOnly s s₁ ∧ (∀ name, listed merged name = if hasWhiteoutPrefix name = false then
        (visibleType g s o.layerRoots name g.indices).toList.map fun type => ⟨name, type⟩ else []) ∧
      buildMergedList A g dir o s =
        ({ o with merged := merged, cached := true }, s₁.setData dir (.overlay { o with merged := merged, cached := true })) := by
  unfold buildMergedList
  rw [if_neg (by rw [hcached]; decide)]
  split_ifs with htotal
  · refine ⟨[], s, RefsOnly.refl s, fun name => ?_, rfl⟩
    rw [visibleType_empty hshort htotal]
    split_ifs <;> rfl
  · have halloc : allocBlock A s = (true, { s with clock := s.clock + 1 }) := by rw [allocBlock, hblock]
    have hr₁ := RefsOnly.alloc halloc
    rw [halloc]
    obtain ⟨hr₂, hlist⟩ := mergeLayers_listed (s := { s with clock := s.clock + 1 }) hlive
      (hr₁.shortNames hshort) g.indices []
    refine ⟨_, _, hr₁.trans hr₂, fun name => ?_, rfl⟩
    rw [hlist name, hr₁.visibleType]
    simp [listed]

theorem visibleType_isSome : (visibleType g s roots name g.indices).isSome = true ↔ ∃ i ∈ g.indices,
    (layerEntry s roots name i).isSome = true ∧ ∀ u ∈ g.above i, g.writable u = true →
      layerEntry s roots (makeWhiteoutName name) u = none := by
  rw [visibleType, List.findSome?_isSome_iff]
  refine exists_congr fun i => and_congr_right fun _ => ?_
  have hcover : whiteoutIn g s roots name (g.above i) = none ↔ ∀ u ∈ g.above i, g.writable u = true →
      layerEntry s roots (makeWhiteoutName name) u = none := by
    rw [whiteoutIn, List.findSome?_eq_none_iff]
    refine forall₂_congr fun u _ => ?_
    cases g.writable u <;> simp
  rw [← hcover]
  cases whiteoutIn g s roots name (g.above i) <;> simp

/-- The merged list of a directory that has none yet holds the names that some layer shows, once and with the type of the
topmost such layer, and these are the names that can be looked up. -/
theorem merged_union (hblock : ∀ n, A.block n = true) (hvn : (A.vnode (s.clock + 1) s.live).isSome = true)
    (hdir : s.live dir = true) (ho : s.overlay? dir = some o) (hcached : o.cached = false)
    (hlive : ∀ i a, o.layerRoots i = some a → s.live a = true) (hshort : ShortNames o.layerRoots s)
    (hname : hasWhiteoutPrefix name = false) :
    ((∃ m ∈ (buildMergedList A g dir o s).1.merged, m.name = name) ↔ ∃ i ∈ g.indices,
      (layerEntry s o.layerRoots name i).isSome = true ∧ ∀ u ∈ g.above i, g.writable u = true →
        layerEntry s o.layerRoots (makeWhiteoutName name) u = none) ∧
    listed (buildMergedList A g dir o s).1.merged name =
      (visibleType g s o.layerRoots name g.indices).toList.map (fun type => ⟨name, type⟩) ∧
    lookupType A g dir name s = visibleType g s o.layerRoots name g.indices := by
  obtain ⟨merged, s₁, -, hlist, hbuild⟩ := buildMergedList_listed dir (hblock _) hcached hlive hshort
  have hlisted := (hlist name).trans (if_pos hname)
  rw [hbuild]
  refine ⟨?_, hlisted, lookupType_eq name hdir ho hlive (hblock _) hvn⟩
  rw [← visibleType_isSome]
  have hany : (∃ m ∈ merged, m.name = name) ↔ listed merged name ≠ [] := by
    rw [← any_listed, List.any_eq_true]
    simp only [decide_eq_true_eq]
  rw [hany, hlisted]
  cases visibleType g s o.layerRoots name g.indices <;> simp

theorem overTwo_new : NewDir 8 (rootLayers upperLower) overTwo.state := by
  refine ⟨rfl, rfl, fun i a hi => ?_⟩
  have hcases : a = 1 ∧ i = 0 ∨ a = 2 ∧ i = 1 := by
    revert hi
    unfold rootLayers upperLower
    fin_cases i <;> simp <;> intro h <;> exact h.symm
  rcases hcases with ⟨rfl, rfl⟩ | ⟨rfl, rfl⟩
  · exact ⟨rfl, [], rfl, fun e he => nomatch he⟩
  · refine ⟨rfl, [⟨[102], 4⟩], rfl, fun e he => ?_⟩
    rw [List.mem_singleton.1 he]
    refine ⟨by decide, ?_⟩
    decide

theorem overTwo_short : ShortNames (rootLayers upperLower) overTwo.state := by
  intro i a es e hi hes he
  obtain ⟨-, es', hes', hall⟩ := overTwo_new.layer i a hi
  cases hes.symm.trans hes'
  exact (hall e he).1

/-- The file of the lower tree, found through the overlay and listed once. -/
theorem merged_union_lower :
    listed (buildMergedList bump upperLower 8 ⟨rootLayers upperLower, [], false⟩ overTwo.state).1.merged [102] =
        [⟨[102], .file⟩] ∧
      lookupType bump upperLower 8 [102] overTwo.state = some .file := by
  exact (merged_union (fun _ => rfl) rfl overTwo_new.live overTwo_new.node rfl
    (fun i a hi => (overTwo_new.layer i a hi).1) overTwo_short rfl).2

end Tori.Fs
