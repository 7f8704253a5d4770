import Tori.Proofs.OverlayMerge

/-! The buffer of an overlay's merged list. It is allocated for all entries of the layers and freed for those that were
listed. -/

namespace Tori.Fs

open Vfs State Function

variable {s : State} {A : Allocator} {g : Layers} {dir : Addr} {roots : Fin maxLayers → Option Addr} {o : OverlayVnode}
  {name : Str} {merged : List MergedEntry}

theorem length_layerNames (s : State) (o : OverlayVnode) : (layerNames g s o.layerRoots).length = totalEntries g o s := by
  simp only [layerNames, totalEntries, List.length_flatMap, List.length_map]

theorem mem_layerNames (hshort : ShortNames roots s) (h : (visibleType g s roots name g.indices).isSome = true) :
    name ∈ layerNames g s roots := by
  obtain ⟨i, hi, he, -⟩ := visibleType_isSome.mp h
  cases hroot : roots i with
  | none => rw [layerEntry_none hroot] at he; cases he
  | some root =>
    obtain ⟨e, he⟩ := Option.isSome_iff_exists.mp he
    have hfind := find?_dirents name hroot hshort
    rw [he, Option.map_some] at hfind
    refine List.mem_flatMap.mpr ⟨i, hi, ?_⟩
    rw [hroot]
    exact List.mem_map_of_mem (List.mem_of_find?_eq_some hfind)

/-- The merged list as it is made: each name that is shown once. -/
theorem names_of_listed (hlist : ∀ name, listed merged name = if hasWhiteoutPrefix name = false then
      (visibleType g s roots name g.indices).toList.map (fun type => ⟨name, type⟩) else []) :
    (merged.map MergedEntry.name).Nodup ∧ ∀ name, name ∈ merged.map MergedEntry.name ↔
      hasWhiteoutPrefix name = false ∧ (visibleType g s roots name g.indices).isSome = true := by
  have hcount : ∀ name, (merged.map MergedEntry.name).count name = (listed merged name).length := fun name => by
    rw [List.count, List.countP_map, List.countP_eq_length_filter, listed]
    simp only [comp_def, beq_eq_decide]
  have hone : ∀ name, (listed merged name).length =
      if hasWhiteoutPrefix name = false ∧ (visibleType g s roots name g.indices).isSome = true then 1 else 0 := fun name => by
    rw [hlist name]
    cases hasWhiteoutPrefix name <;> cases visibleType g s roots name g.indices <;> rfl
  refine ⟨List.nodup_iff_count_le_one.mpr fun name => ?_, fun name => ?_⟩
  · rw [hcount, hone]
    split_ifs <;> omega
  · rw [← List.count_pos_iff, hcount, hone]
    split_ifs with h
    · exact iff_of_true Nat.one_pos h
    · exact iff_of_false (lt_irrefl 0) h

theorem length_merged_iff (hshort : ShortNames roots s) (hnd : (merged.map MergedEntry.name).Nodup)
    (hmem : ∀ name, name ∈ merged.map MergedEntry.name ↔
      hasWhiteoutPrefix name = false ∧ (visibleType g s roots name g.indices).isSome = true) :
    merged.length = (layerNames g s roots).length ↔ AllListed g s roots := by
  have hsub : (merged.map MergedEntry.name).Subperm (layerNames g s roots) :=
    hnd.subperm fun name hname => mem_layerNames hshort ((hmem name).mp hname).2
  rw [← List.length_map MergedEntry.name]
  constructor
  · intro hlen
    have hperm := hsub.perm_of_length_le hlen.ge
    exact ⟨fun name hname => (hmem name).mp (hperm.mem_iff.mpr hname), hperm.nodup_iff.mp hnd⟩
  · intro h
    exact ((List.perm_ext_iff_of_nodup hnd h.once).mpr fun name =>
      ⟨fun hname => hsub.subset hname, fun hname => (hmem name).mpr (h.shown name hname)⟩).length_eq

/-- The directory is listed, the overlay unmounted: `kfree` is given the size that `kalloc` was given exactly when every
entry of the layers was listed. -/
theorem merged_freed_iff (hdir : s.live dir = true) (ho : s.overlay? dir = some o) (hcached : o.cached = false)
    (hlive : ∀ i a, o.layerRoots i = some a → s.live a = true) (hshort : ShortNames o.layerRoots s) {size : ℕ}
    (halloc : mergedAlloc A g o s = some size) (offset : ℕ) :
    mergedFree dir (overlayReaddir A g dir offset s).2 = some size ↔ AllListed g s o.layerRoots := by
  unfold mergedAlloc at halloc
  split_ifs at halloc with htotal hblock
  cases halloc
  obtain ⟨merged, s₁, -, hlist, hbuild⟩ := buildMergedList_listed dir hblock hcached hlive hshort
  obtain ⟨hnd, hmem⟩ := names_of_listed hlist
  have hstate : (overlayReaddir A g dir offset s).2 = (buildMergedList A g dir o s).2 := by
    unfold overlayReaddir
    simp only [touch_of_live hdir, ho]
    split <;> rfl
  rw [hstate, hbuild, ← length_merged_iff hshort hnd hmem, length_layerNames]
  simp [mergedFree, State.overlay?, setData, setVnode]

/-- The lower tree's file is the only entry. -/
theorem merged_freed_lower : mergedFree 8 (overlayReaddir bump upperLower 8 0 overTwo.state).2 = some 257 :=
  (merged_freed_iff overTwo_new.live overTwo_new.node rfl (fun i a hi => (overTwo_new.layer i a hi).1) overTwo_short rfl 0).mpr
    ⟨by decide, by decide⟩

/-- A file of that name is made in the upper tree: the list of one entry was allocated for two. -/
theorem merged_freed_short :
    mergedAlloc bump upperLower ⟨rootLayers upperLower, [], false⟩ (overlayCreate bump upperLower 8 [102] overTwo.state).2 =
        some (2 * 257) ∧
      mergedFree 8 (overlayReaddir bump upperLower 8 0 (overlayCreate bump upperLower 8 [102] overTwo.state).2).2 =
        some (1 * 257) :=
  ⟨rfl, rfl⟩

end Tori.Fs
