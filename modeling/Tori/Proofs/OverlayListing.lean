import Tori.Proofs.OverlayMerge

/-! The listing of an overlay directory against its lookups. Both are read off the layer directories: without whiteouts a
name stands for its entry in the first layer that has it. The invariant says that the layer directories hold no whiteout
names and that a cached listing is the one that would be made now. -/

namespace Tori.Fs

open Vfs State Function

variable {s s' : State} {A : Allocator} {g : Layers} {dir : Addr} {roots : Fin maxLayers → Option Addr}
variable {o : OverlayVnode} {name : Str}

/-! ### Layers without whiteouts -/

/-- The type of the name in the first layer that has it. -/
def firstType (s : State) (roots : Fin maxLayers → Option Addr) (name : Str) (is : List (Fin maxLayers)) : Option VnodeType :=
  is.findSome? fun i => (layerEntry s roots name i).map fun e => (s.vnodes e.vnode).type

variable {e : RamfsEntry} {i : Fin maxLayers} {is : List (Fin maxLayers)} {type : VnodeType} {offset : ℕ} {ds : List Dirent} {root : Addr}

theorem layerEntry_mem (h : layerEntry s roots name i = some e) :
    ∃ a es, roots i = some a ∧ s.entries a = some es ∧ e ∈ es ∧ e.name = name := by
  obtain ⟨a, ha, h⟩ := Option.bind_eq_some_iff.1 h
  obtain ⟨es, hes, hfind⟩ := Option.bind_eq_some_iff.1 h
  exact ⟨a, es, ha, hes, List.mem_of_find?_eq_some hfind, by simpa using List.find?_some hfind⟩

theorem NoWhiteouts.layerEntry (h : NoWhiteouts roots s) (hname : hasWhiteoutPrefix name = true) (i : Fin maxLayers) :
    layerEntry s roots name i = none := by
  rw [Option.eq_none_iff_forall_ne_some]
  intro e he
  obtain ⟨a, es, ha, hes, hmem, rfl⟩ := layerEntry_mem he
  rw [h i a es e ha hes hmem] at hname
  cases hname

theorem NoWhiteouts.visibleType (h : NoWhiteouts roots s) (is : List (Fin maxLayers)) :
    visibleType g s roots name is = firstType s roots name is := by
  have hnone : ∀ us, whiteoutIn g s roots name us = none := fun us =>
    List.findSome?_eq_none_iff.mpr fun u _ => by rw [h.layerEntry hasWhiteoutPrefix_make, ite_self]
  simp only [Fs.visibleType, hnone, firstType]
  rfl

theorem NoWhiteouts.firstType (h : NoWhiteouts roots s) (hname : hasWhiteoutPrefix name = true) (is : List (Fin maxLayers)) :
    firstType s roots name is = none :=
  List.findSome?_eq_none_iff.mpr fun i _ => by rw [h.layerEntry hname, Option.map_none]

/-! ### The invariant -/

/-- The listing agrees with the layers. -/
def Lists (g : Layers) (s : State) (roots : Fin maxLayers → Option Addr) (merged : List MergedEntry) : Prop :=
  ∀ name, listed merged name = (firstType s roots name g.indices).toList.map fun type => ⟨name, type⟩

structure DirOk (g : Layers) (dir : Addr) (roots : Fin maxLayers → Option Addr) (s : State) : Prop where
  live : s.live dir = true
  node : ∃ o, s.overlay? dir = some o ∧ o.layerRoots = roots ∧ (o.cached = true → Lists g s roots o.merged)
  layer : ∀ i a, roots i = some a → s.live a = true ∧ ∃ es, s.entries a = some es ∧
    ∀ e ∈ es, e.name.length ≤ 255 ∧ ∀ j, roots j ≠ some e.vnode
  plain : NoWhiteouts roots s

theorem NewDir.ok (h : NewDir dir roots s) (hw : NoWhiteouts roots s) : DirOk g dir roots s :=
  ⟨h.live, ⟨_, h.node, rfl, fun hc => nomatch hc⟩, h.layer, hw⟩

theorem entries_none (h : s.overlay? dir = some o) : s.entries dir = none := by
  rw [entries_eq, core_of_overlay? h]

namespace DirOk

theorem alive (h : DirOk g dir roots s) (i : Fin maxLayers) (a : Addr) (hi : roots i = some a) : s.live a = true :=
  (h.layer i a hi).1

theorem short (h : DirOk g dir roots s) : ShortNames roots s := by
  intro i a es e hi hes he
  obtain ⟨-, es', hes', hall⟩ := h.layer i a hi
  rw [hes] at hes'
  cases hes'
  exact (hall e he).1

theorem root_ne (h : DirOk g dir roots s) {i : Fin maxLayers} {a : Addr} (hi : roots i = some a) : a ≠ dir := by
  rintro rfl
  obtain ⟨o, ho, -⟩ := h.node
  obtain ⟨-, es, hes, -⟩ := h.layer i a hi
  rw [entries_none ho] at hes
  cases hes

end DirOk

theorem firstType_congr (hes : ∀ i a, roots i = some a → s'.entries a = s.entries a)
    (ht : ∀ a, (s'.vnodes a).type = (s.vnodes a).type) : firstType s' roots name is = firstType s roots name is := by
  unfold firstType
  congr 1
  funext i
  have hentry : layerEntry s' roots name i = layerEntry s roots name i := by
    unfold layerEntry
    cases hi : roots i with
    | none => rfl
    | some a => rw [Option.bind_some, Option.bind_some, hes i a hi]
  rw [hentry]
  congr 1
  funext e
  exact ht _

theorem firstType_short (h : DirOk g dir roots s) (ht : firstType s roots name is = some type) : name.length ≤ 255 := by
  obtain ⟨i, -, hi⟩ := List.exists_of_findSome?_eq_some ht
  obtain ⟨e, he, -⟩ := Option.map_eq_some_iff.1 hi
  obtain ⟨a, es, ha, hes, hmem, rfl⟩ := layerEntry_mem he
  exact h.short i a es e ha hes hmem

/-! ### Listing -/

theorem buildMergedList_lists (hblock : ∀ n, A.block n = true) (h : DirOk g dir roots s) (ho : o.layerRoots = roots)
    (hcached : o.cached = false) : ∃ merged s₁, RefsOnly s s₁ ∧ Lists g s roots merged ∧
      buildMergedList A g dir o s =
        ({ o with merged := merged, cached := true }, s₁.setData dir (.overlay { o with merged := merged, cached := true })) := by
  subst ho
  obtain ⟨merged, s₁, hr, hlist, hbuild⟩ := buildMergedList_listed dir (hblock _) hcached h.alive h.short
  refine ⟨merged, s₁, hr, fun name => ?_, hbuild⟩
  rw [hlist name, h.plain.visibleType]
  split_ifs with hname
  · rfl
  · rw [h.plain.firstType (by simpa using hname)]
    rfl

/-- The answer of `overlay_readdir` once the list is made. -/
def listAnswer (o : OverlayVnode) (offset : ℕ) : Except Err (Dirent × ℕ) :=
  match o.merged[offset]? with
  | none => .error .eNotFound
  | some m => .ok (⟨copyName m.name, m.type⟩, offset + 1)

theorem readdir_cached (ho : s.overlay? dir = some o) (hc : o.cached = true) (offset : ℕ) :
    overlayReaddir A g dir offset s = (listAnswer o offset, s.touch dir) := by
  have hbuild : buildMergedList A g dir o (s.touch dir) = (o, s.touch dir) := if_pos hc
  unfold overlayReaddir listAnswer
  simp only [overlay?_touch, ho, hbuild]
  cases o.merged[offset]? <;> rfl

theorem DirOk.readdir (hblock : ∀ n, A.block n = true) (h : DirOk g dir roots s) : ∃ o s', s'.overlay? dir = some o ∧
    o.cached = true ∧ Lists g s roots o.merged ∧ DirOk g dir roots s' ∧
    ∀ offset, overlayReaddir A g dir offset s = (listAnswer o offset, s') := by
  obtain ⟨o, ho, hroots, hlist⟩ := h.node
  have htouch := touch_of_live h.live
  cases hc : o.cached with
  | true => exact ⟨o, s, ho, hc, hlist hc, h, fun offset => by rw [readdir_cached ho hc, htouch]⟩
  | false =>
    obtain ⟨merged, s₁, hr, hlists, hbuild⟩ := buildMergedList_lists hblock h hroots hc
    set o' : OverlayVnode := { o with merged := merged, cached := true } with ho'
    have hnode : (s₁.setData dir (.overlay o')).overlay? dir = some o' := by
      rw [overlay?_eq, core_setData, update_self]
      rfl
    have hentries : ∀ i a, roots i = some a → (s₁.setData dir (.overlay o')).entries a = s.entries a := by
      intro i a hi
      rw [← hr.entries a]
      refine entries_congr ?_
      rw [core_setData, update_of_ne (h.root_ne hi)]
    have htypes : ∀ a, ((s₁.setData dir (.overlay o')).vnodes a).type = (s.vnodes a).type := by
      intro a
      rw [← type_core, core_setData]
      by_cases ha : a = dir
      · rw [ha, update_self]
        exact type_of_body (hr.body dir)
      · rw [update_of_ne ha]
        exact type_of_body (hr.body a)
    have hlive : (s₁.setData dir (.overlay o')).live = s.live := hr.live
    refine ⟨o', _, hnode, rfl, hlists, ⟨?_, ⟨o', hnode, hroots, fun _ name => ?_⟩, ?_, ?_⟩, fun offset => ?_⟩
    · rw [hlive]
      exact h.live
    · rw [firstType_congr hentries htypes]
      exact hlists name
    · intro i a hi
      rw [hlive, hentries i a hi]
      exact h.layer i a hi
    · intro i a es e hi hes he
      rw [hentries i a hi] at hes
      exact h.plain i a es e hi hes he
    · unfold overlayReaddir listAnswer
      rw [htouch]
      simp only [ho, hbuild]
      cases o'.merged[offset]? <;> rfl

theorem Enumeration.at_end (hcall : overlayReaddir A g dir offset s = (listAnswer o offset, s'))
    (hle : o.merged.length ≤ offset) : Enumeration A g dir offset s [] := by
  rw [listAnswer, List.getElem?_eq_none hle] at hcall
  exact .done hcall

theorem Enumeration.at_entry (hcall : overlayReaddir A g dir offset s = (listAnswer o offset, s'))
    (hlt : offset < o.merged.length) (hrest : Enumeration A g dir (offset + 1) s' ds) :
    Enumeration A g dir offset s (⟨copyName o.merged[offset].name, o.merged[offset].type⟩ :: ds) := by
  rw [listAnswer, List.getElem?_eq_getElem hlt] at hcall
  exact .next hcall hrest

theorem enumeration_cached (ho : s.overlay? dir = some o) (hlive : s.live dir = true) (hc : o.cached = true) :
    ∀ (n offset : ℕ), o.merged.length - offset = n →
      Enumeration A g dir offset s ((o.merged.drop offset).map fun m => ⟨copyName m.name, m.type⟩) := by
  have hcall : ∀ offset, overlayReaddir A g dir offset s = (listAnswer o offset, s) := fun offset => by
    rw [readdir_cached ho hc, touch_of_live hlive]
  intro n
  induction n with
  | zero =>
    intro offset hn
    rw [List.drop_eq_nil_of_le (by omega)]
    exact .at_end (hcall offset) (by omega)
  | succ n ih =>
    intro offset hn
    have hlt : offset < o.merged.length := by omega
    rw [List.drop_eq_getElem_cons hlt]
    exact .at_entry (hcall offset) hlt (ih (offset + 1) (by omega))

theorem Enumeration.unique {ds' : List Dirent} (h : Enumeration A g dir offset s ds)
    (h' : Enumeration A g dir offset s ds') : ds' = ds := by
  induction h generalizing ds' with
  | done hcall =>
    cases h' with
    | done _ => rfl
    | next hcall' _ =>
      rw [hcall] at hcall'
      cases hcall'
  | next hcall _ ih =>
    cases h' with
    | done hcall' =>
      rw [hcall] at hcall'
      cases hcall'
    | next hcall' hrest =>
      rw [hcall] at hcall'
      cases hcall'
      rw [ih hrest]

/-- In every state with the invariant the listing agrees with the lookups. -/
theorem DirOk.coherent (hblock : ∀ n, A.block n = true) (h : DirOk g dir roots s)
    (hvn : (A.vnode (s.clock + 1) s.live).isSome = true) : Coherent A g dir s := by
  obtain ⟨o₀, ho₀, hroots, -⟩ := h.node
  obtain ⟨o, s', ho, hc, hlists, hok, hcall⟩ := h.readdir hblock
  have hall := fun n offset => enumeration_cached (A := A) (g := g) ho hok.live hc n offset
  refine ⟨o.merged.map fun m => ⟨copyName m.name, m.type⟩, ?_, fun name => ?_⟩
  · cases hm : o.merged with
    | nil => exact .at_end (hcall 0) (by simp [hm])
    | cons m ms =>
      have hrest := hall _ 1 rfl
      have hfirst := Enumeration.at_entry (hcall 0) (by simp [hm]) hrest
      simpa only [hm, List.getElem_cons_zero, List.drop_one, List.tail_cons, List.map_cons] using hfirst
  · have hlookup := lookupType_eq (g := g) name h.live ho₀ (by rw [hroots]; exact h.alive) (hblock _) hvn
    rw [hlookup, hroots, h.plain.visibleType]
    -- names on the list are names of entries, so they are not cut off again
    have hshort : ∀ m ∈ o.merged, copyName m.name = m.name := by
      intro m hm
      have hmem : m ∈ listed o.merged m.name := List.mem_filter.2 ⟨hm, decide_eq_true rfl⟩
      rw [hlists m.name] at hmem
      cases ht : firstType s roots m.name g.indices with
      | none =>
        rw [ht] at hmem
        cases hmem
      | some type => exact copyName_of_le (firstType_short h ht)
    have hmap : (o.merged.map fun m => (⟨copyName m.name, m.type⟩ : Dirent)).filter (fun d => d.name = name) =
        (listed o.merged name).map fun m => ⟨m.name, m.type⟩ := by
      rw [List.map_congr_left fun m hm => by rw [hshort m hm], List.filter_map]
      rfl
    rw [hmap, hlists name, List.map_map]
    rfl

/-! ### Changes before the first listing -/

/-- An entry that a layer directory may hold. -/
def FairEntry (roots : Fin maxLayers → Option Addr) (e : RamfsEntry) : Prop :=
  (e.name.length ≤ 255 ∧ ∀ j, roots j ≠ some e.vnode) ∧ hasWhiteoutPrefix e.name = false

structure Unread (g : Layers) (dir : Addr) (roots : Fin maxLayers → Option Addr) (s : State) : Prop
    extends DirOk g dir roots s where
  unlisted : Unlisted dir s

theorem DirOk.entries (h : DirOk g dir roots s) (hi : roots i = some root) :
    ∃ es, s.entries root = some es ∧ ∀ e ∈ es, FairEntry roots e := by
  obtain ⟨-, es, hes, hall⟩ := h.layer i root hi
  exact ⟨es, hes, fun e he => ⟨hall e he, h.plain i root es e hi hes he⟩⟩

theorem DirOk.fair (h : DirOk g dir roots s) (hi : roots i = some root) {es : List RamfsEntry}
    (hes : s.entries root = some es) : ∀ e ∈ es, FairEntry roots e := by
  obtain ⟨es', hes', hall⟩ := h.entries hi
  rw [hes] at hes'
  cases hes'
  exact hall

namespace Unread

section

variable (h : Unread g dir roots s)
include h

theorem change (hlive : s'.live dir = true) (ho : s'.overlay? dir = s.overlay? dir)
    (hlayer : ∀ i a, roots i = some a → s'.live a = true ∧ ∃ es, s'.entries a = some es ∧ ∀ e ∈ es, FairEntry roots e) :
    Unread g dir roots s' := by
  obtain ⟨o, ho', hroots, -⟩ := h.node
  have hun : Unlisted dir s' := fun o' h' => h.unlisted o' (ho ▸ h')
  refine ⟨⟨hlive, ⟨o, ho.trans ho', hroots, fun hc => ?_⟩, fun i a hi => ?_, fun i a es e hi hes he => ?_⟩, hun⟩
  · rw [h.unlisted o ho'] at hc
    cases hc
  · obtain ⟨hl, es, hes, hall⟩ := hlayer i a hi
    exact ⟨hl, es, hes, fun e he => (hall e he).1⟩
  · obtain ⟨-, es', hes', hall⟩ := hlayer i a hi
    rw [hes] at hes'
    cases hes'
    exact (hall e he).2

theorem keep (hlive : ∀ a, s.live a = true → s'.live a = true)
    (hbody : ∀ a, s.live a = true → s'.body a = s.body a) : Unread g dir roots s' := by
  have hdata := fun a ha => data_of_body (hbody a ha)
  refine h.change (hlive dir h.live) (overlay?_congr (hdata dir h.live)) fun i a hi => ?_
  have hl := h.alive i a hi
  obtain ⟨es, hes, hall⟩ := h.entries hi
  exact ⟨hlive a hl, es, (entries_congr (hdata a hl)).trans hes, hall⟩

theorem refs (hr : RefsOnly s s') : Unread g dir roots s' :=
  h.keep (fun a ha => by rw [hr.live]; exact ha) fun a _ => hr.body a

theorem newOverlay {found : Fin maxLayers → Option Addr} {vn : Addr}
    (hn : NewOverlay found s vn s') : Unread g dir roots s' := by
  have hne : ∀ a, s.live a = true → a ≠ vn := by
    rintro a ha rfl
    rw [hn.fresh] at ha
    cases ha
  refine h.keep (fun a ha => ?_) fun a ha => body_of_core (hn.other a (hne a ha))
  rw [hn.live, update_of_ne (hne a ha)]
  exact ha

theorem make (hroot : roots i = some root) (hplain : hasWhiteoutPrefix name = false)
    {data : PrivateData} {r : Except Err Addr} (hcall : ramfsMake A type data root name s = (r, s')) :
    Unread g dir roots s' := by
  have hlroot := h.alive i root hroot
  cases ramfsMake_cases hlroot hcall with
  | failed hsame =>
    exact h.keep (fun a ha => by rw [hsame.live]; exact ha) fun a ha => body_of_core (hsame.core a ha)
  | @made a _ hmade =>
    obtain ⟨es, hes, -, hparent⟩ := hmade.parent
    have hne : ∀ x, s.live x = true → x ≠ a := by
      rintro x hx rfl
      rw [hmade.fresh] at hx
      cases hx
    have hlive : ∀ x, s.live x = true → s'.live x = true := by
      intro x hx
      rw [hmade.live, update_of_ne (hne x hx)]
      exact hx
    have hdata : ∀ x, s.live x = true → x ≠ root → (s'.core x).privateData = (s.core x).privateData := fun x hx hxr => by
      rw [hmade.other x (hne x hx) hxr]
    refine h.change (hlive dir h.live) (overlay?_congr (hdata dir h.live (h.root_ne hroot).symm)) fun j b hj => ?_
    have hlb := h.alive j b hj
    refine ⟨hlive b hlb, ?_⟩
    by_cases hb : b = root
    · subst hb
      refine ⟨es ++ [⟨copyName name, a⟩], by rw [entries_eq, hparent], fun e he => ?_⟩
      rcases List.mem_append.1 he with he | he
      · exact h.fair hj hes e he
      · rw [List.mem_singleton.1 he]
        refine ⟨⟨(List.length_take_le _ _), fun k hk => ?_⟩, hasWhiteoutPrefix_copyName.trans hplain⟩
        exact hne a (h.alive k a hk) rfl
    · obtain ⟨es', hes', hall⟩ := h.entries hj
      exact ⟨es', (entries_congr (hdata b hlb hb)).trans hes', hall⟩

/-- An entry is taken out of a layer directory and its vnode released. -/
theorem releaseEntry (hroot : roots i = some root) {d : RamfsDir} (hd : s.dir? root = some d)
    (he : dirFindEntry d name = some e) (hne : e.vnode ≠ dir) : Unread g dir roots (releaseEntry root d name e.vnode s) := by
  have hall := h.fair hroot (entries_of_dir? hd)
  unfold Fs.releaseEntry dirRemoveEntry
  simp only [he]
  set s₁ := vnodeUnref e.vnode (s.release e.vnode) with hs₁
  have hdata : ∀ x, x ≠ root → ∀ p, ((s₁.setData root p).core x).privateData = (s.core x).privateData := by
    intro x hx p
    rw [core_setData, update_of_ne hx]
    exact data_of_body ((RefsOnly.unref _ _).body x)
  have hlive : ∀ x, x ≠ e.vnode → s.live x = true → s₁.live x = true := by
    intro x hx hl
    rw [hs₁, live_vnodeUnref, live_release, update_of_ne hx]
    exact hl
  refine h.change (hlive dir hne.symm h.live) (overlay?_congr (hdata dir (h.root_ne hroot).symm _)) fun j b hj => ?_
  have hb : b ≠ e.vnode := by
    rintro rfl
    exact (hall e (List.mem_of_find?_eq_some he)).1.2 j hj
  refine ⟨hlive b hb (h.alive j b hj), ?_⟩
  by_cases hbr : b = root
  · subst hbr
    refine ⟨d.entries.eraseP fun e => e.name = name, ?_, fun e he => hall e (List.mem_of_mem_eraseP he)⟩
    rw [entries_eq, core_setData, update_self]
    rfl
  · obtain ⟨es', hes', hall'⟩ := h.entries hj
    exact ⟨es', (entries_congr (hdata b hbr _)).trans hes', hall'⟩

theorem removal {r : Except Err Unit × State} (hroot : roots i = some root)
    (hr : Removal type root name s r) : Unread g dir roots r.2 := by
  obtain ⟨o, ho, -⟩ := h.node
  cases hr with
  | fault hd => exact h
  | missing hd he => exact h
  | kept hd he herr => exact h.refs (RefsOnly.touch _ s)
  | removed hd he htype hdata =>
    exact (h.refs (RefsOnly.touch _ s)).releaseEntry hroot hd he (Removal.ne_overlay hdata ho)

/-! ### The calls -/

theorem overlayCreate (hplain : hasWhiteoutPrefix name = false) :
    Unread g dir roots (overlayCreate A g dir name s).2 := by
  obtain ⟨o, ho, rfl, -⟩ := h.node
  have hmade : ∀ {o' i root r s₁}, s.overlay? dir = some o' → firstWritable g o' g.indices = some (i, root) →
      ramfsCreate A root name s = (r, s₁) → Unread g dir o.layerRoots s₁ := fun ho' hw hc => by
    cases ho.symm.trans ho'
    exact h.make (firstWritable_some hw).2 hplain hc
  have hcases := overlayCreate_cases (A := A) (g := g) h.live name
  generalize Fs.overlayCreate A g dir name s = r at hcases ⊢
  cases hcases with
  | refused => exact h
  | failed ho hw hreal hrefs => exact (hmade ho hw hreal).refs hrefs
  | made ho hw hreal hrefs hnew => exact ((hmade ho hw hreal).refs hrefs).newOverlay hnew

theorem overlayMkdir (hplain : hasWhiteoutPrefix name = false) :
    Unread g dir roots (overlayMkdir A g dir name s).2 := by
  obtain ⟨o, ho, rfl, -⟩ := h.node
  unfold Fs.overlayMkdir
  rw [touch_of_live h.live]
  simp only [ho]
  cases hfirst : firstWritable g o g.indices with
  | none => exact h
  | some p =>
    dsimp only
    unfold ramfsMkdir
    rcases hc : ramfsMake A .directory (.dir ⟨[], 0⟩) p.2 name s with ⟨r, s₁⟩
    exact h.make (firstWritable_some hfirst).2 hplain hc

theorem overlayRmdir : Unread g dir roots (overlayRmdir g dir name s).2 := by
  obtain ⟨o, ho, rfl, -⟩ := h.node
  unfold Fs.overlayRmdir
  rw [touch_of_live h.live]
  simp only [ho]
  cases hfirst : firstWritable g o g.indices with
  | none => exact h
  | some p =>
    have hroot := (firstWritable_some hfirst).2
    dsimp only
    rcases hl : ramfsLookup p.2 name s with ⟨r, s₁⟩
    have hr := RefsOnly.lookup hl
    cases r with
    | error e => exact h.refs hr
    | ok real =>
      have h₁ := h.refs (hr.trans (RefsOnly.unref real s₁))
      exact h₁.removal hroot (ramfsRmdir_cases (h₁.alive _ _ hroot) _)

end

end Unread

theorem layerHas_eq (ho : o.layerRoots = roots) (i : Fin maxLayers) :
    layerHas o name s i = (layerEntry s roots name i).isSome := by
  unfold layerHas layerEntry
  rw [ho]
  cases roots i with
  | none => rfl
  | some a =>
    rw [Option.bind_some, Option.bind_some]
    cases s.entries a with
    | none => rfl
    | some es => rw [Option.any_some, Option.bind_some, Bool.eq_iff_iff, List.find?_isSome, List.any_eq_true]

theorem topEntry_find (h : topEntry s o name is = some (i, root, e)) : is.find? (layerHas o name s) = some i := by
  induction is with
  | nil => cases h
  | cons j is ih =>
    rw [topEntry, List.findSome?_cons] at h
    rw [List.find?_cons, layerHas_eq rfl]
    cases hr : o.layerRoots j with
    | none =>
      rw [hr] at h
      rw [layerEntry_none hr]
      exact ih h
    | some root' =>
      rw [hr, Option.bind_some] at h
      rw [layerEntry_some hr]
      cases he : entryAt s root' name with
      | none =>
        rw [he] at h
        exact ih h
      | some e' =>
        rw [he] at h
        cases h
        rfl

/-- Where the first layer that has the name is writable, no whiteout is made. -/
theorem Unread.unlinkLayers (h : Unread g dir o.layerRoots s) (is : List (Fin maxLayers))
    (hw : ∀ i, is.find? (layerHas o name s) = some i → g.writable i = true) :
    Unread g dir o.layerRoots (unlinkLayers A g o name is s).2 := by
  rw [unlinkLayers_eq is h.alive]
  cases htop : topEntry s o name is with
  | none => exact h
  | some x =>
    obtain ⟨i, root, e⟩ := x
    have h₁ := h.refs (RefsOnly.unref e.vnode s)
    dsimp only
    rw [if_pos (hw i (topEntry_find htop))]
    exact h₁.removal (topEntry_some htop).1 (ramfsUnlink_cases (h₁.alive _ _ (topEntry_some htop).1) _)

theorem DirOk.step (hblock : ∀ n, A.block n = true) (h : DirOk g dir roots s) {op : DirOp} (hok : KeepsListing g dir s op) :
    DirOk g dir roots (dirExec A g dir op s) := by
  cases op with
  | create name => exact (Unread.overlayCreate ⟨h, hok.1⟩ hok.2).toDirOk
  | mkdir name => exact (Unread.overlayMkdir ⟨h, hok.1⟩ hok.2).toDirOk
  | unlink name =>
    obtain ⟨o, ho, rfl, -⟩ := h.node
    rw [dirExec, overlayUnlink, touch_of_live h.live]
    simp only [ho]
    exact (Unread.unlinkLayers ⟨h, hok.1⟩ _ (fun i => hok.2 o i ho)).toDirOk
  | rmdir name => exact (Unread.overlayRmdir ⟨h, hok⟩).toDirOk
  | readdir offset =>
    obtain ⟨o, s', -, -, -, hok', hcall⟩ := h.readdir hblock
    rw [dirExec, hcall]
    exact hok'

/-! ### The small overlay -/

theorem overTwo_plain : NoWhiteouts (rootLayers upperLower) overTwo.state := by
  intro i a es e hi hes he
  have hname : e.name = [102] := by
    revert hi hes he
    fin_cases i
    · rintro ⟨⟩ ⟨⟩ he
      cases he
    · rintro ⟨⟩ ⟨⟩ he
      rw [List.mem_singleton.1 he]
      rfl
    all_goals exact fun hi => nomatch hi
  rw [hname]
  rfl

/-- If no allocation fails, every run that keeps the listing leaves the directory coherent. -/
theorem listing_coherent {A : Allocator} {g : Layers} {dir : Addr} {roots : Fin maxLayers → Option Addr} {s₀ s : State}
    (hblock : ∀ n, A.block n = true) (h₀ : NewDir dir roots s₀) (hw : NoWhiteouts roots s₀)
    (hrun : DirRun A g dir (KeepsListing g dir) s₀ s) (hvn : (A.vnode (s.clock + 1) s.live).isSome = true) :
    Coherent A g dir s := by
  have hok : DirOk g dir roots s := by
    clear hvn
    induction hrun with
    | start => exact h₀.ok hw
    | step _ hop ih => exact ih.step hblock hop
  exact hok.coherent hblock hvn

/-- A file is made and the directory listed. -/
theorem created_file_listed :
    Coherent bump upperLower 8 (dirExec bump upperLower 8 (.readdir 0) (dirExec bump upperLower 8 (.create [103]) overTwo.state)) := by
  have hfresh : Unlisted 8 overTwo.state := by
    rintro o ⟨⟩
    rfl
  refine listing_coherent (fun _ => rfl) overTwo_new overTwo_plain (.step (.step .start ?_) ?_) rfl
  · exact ⟨hfresh, rfl⟩
  · exact trivial

/-- The directory is listed and then a file made: it can be looked up and is not listed. -/
theorem file_made_after_listing :
    ∃ s, DirRun bump upperLower 8 (fun _ _ => True) overTwo.state s ∧ lookupType bump upperLower 8 [103] s = some .file ∧
      Enumeration bump upperLower 8 0 s [⟨[102], .file⟩] ∧ ¬ Coherent bump upperLower 8 s := by
  set s := dirExec bump upperLower 8 (.create [103]) (dirExec bump upperLower 8 (.readdir 0) overTwo.state) with hs
  have hlookup : lookupType bump upperLower 8 [103] s = some .file := rfl
  have henum : Enumeration bump upperLower 8 0 s [⟨[102], .file⟩] :=
    enumeration_cached (o := ⟨rootLayers upperLower, [⟨[102], .file⟩], true⟩) rfl rfl rfl 1 0 rfl
  refine ⟨s, .step (.step .start trivial) trivial, hlookup, henum, ?_⟩
  rintro ⟨ds, hds, hall⟩
  have hnew := hall [103]
  rw [henum.unique hds, hlookup] at hnew
  cases hnew

end Tori.Fs
