import Tori.Spec.Ramfs

/-! What each RamFS operation does to the vnode heap. Two states are compared on the `core` of
their vnodes: all of a vnode but the spare room of its directory and its mount back pointer,
which no operation reads. -/

namespace Tori.Fs

open Vfs Function

def PrivateData.core : PrivateData → PrivateData
  | .dir d => .dir ⟨d.entries, 0⟩
  | .file f => .file f
  | .overlay o => .overlay o

def Vnode.core (v : Vnode) : Vnode := ⟨v.type, v.privateData.core, v.refCount, none⟩

namespace State

def core (s : State) (a : Addr) : Vnode := (s.vnodes a).core

def entries (s : State) (a : Addr) : Option (List RamfsEntry) := (s.dir? a).map RamfsDir.entries

/-! ### Reading through the core -/

variable {s s' : State} {a b : Addr}

theorem type_core : (s.core a).type = (s.vnodes a).type := rfl

theorem entries_eq : s.entries a = match (s.core a).privateData with
    | .dir d => some d.entries
    | _ => none := by
  unfold entries dir? core Vnode.core PrivateData.core
  cases (s.vnodes a).privateData <;> rfl

theorem file?_eq : s.file? a = match (s.core a).privateData with
    | .file f => some f
    | _ => none := by
  unfold file? core Vnode.core PrivateData.core
  cases (s.vnodes a).privateData <;> rfl

theorem overlay?_eq : s.overlay? a = match (s.core a).privateData with
    | .overlay o => some o
    | _ => none := by
  unfold overlay? core Vnode.core PrivateData.core
  cases (s.vnodes a).privateData <;> rfl

section

variable (h : (s'.core a).privateData = (s.core a).privateData)
include h

theorem entries_congr : s'.entries a = s.entries a := by rw [entries_eq, entries_eq, h]

theorem file?_congr : s'.file? a = s.file? a := by rw [file?_eq, file?_eq, h]

theorem overlay?_congr : s'.overlay? a = s.overlay? a := by rw [overlay?_eq, overlay?_eq, h]

end

variable {d : RamfsDir} {p : PrivateData}

theorem entries_of_dir? (h : s.dir? a = some d) : s.entries a = some d.entries := by
  rw [entries, h]
  rfl

theorem core_of_dir? (h : s.dir? a = some d) :
    (s.core a).privateData = .dir ⟨d.entries, 0⟩ := by
  unfold dir? at h
  unfold core Vnode.core PrivateData.core
  cases hp : (s.vnodes a).privateData <;> simp_all

theorem core_of_entries {es : List RamfsEntry} (h : s.entries a = some es) :
    (s.core a).privateData = .dir ⟨es, 0⟩ := by
  obtain ⟨d, hd, rfl⟩ := Option.map_eq_some_iff.mp h
  exact core_of_dir? hd

theorem core_of_file? {f : RamfsFile} (h : s.file? a = some f) : (s.core a).privateData = .file f := by
  unfold file? at h
  unfold core Vnode.core PrivateData.core
  cases hp : (s.vnodes a).privateData <;> simp_all

theorem core_of_overlay? {o : OverlayVnode} (h : s.overlay? a = some o) : (s.core a).privateData = .overlay o := by
  unfold overlay? at h
  unfold core Vnode.core PrivateData.core
  cases hp : (s.vnodes a).privateData <;> simp_all

/-! ### The elementary updates -/

theorem ne_of_live (ha : s.live a = true) (hb : s.live b = false) : a ≠ b := by
  rintro rfl
  rw [ha] at hb
  cases hb

theorem touch_of_live (h : s.live a = true) : s.touch a = s := by
  unfold touch
  rw [h]
  simp

@[simp] theorem live_touch : (s.touch a).live = s.live := rfl
@[simp] theorem vnodes_touch : (s.touch a).vnodes = s.vnodes := rfl
@[simp] theorem core_touch : (s.touch a).core = s.core := rfl
@[simp] theorem dir?_touch : (s.touch a).dir? b = s.dir? b := rfl
@[simp] theorem file?_touch : (s.touch a).file? b = s.file? b := rfl
@[simp] theorem overlay?_touch : (s.touch a).overlay? b = s.overlay? b := rfl
@[simp] theorem clock_touch : (s.touch a).clock = s.clock := rfl

@[simp] theorem live_setData : (s.setData a p).live = s.live := rfl
@[simp] theorem stale_setData : (s.setData a p).stale = s.stale := rfl

theorem core_setVnode {v : Vnode} : (s.setVnode a v).core = update s.core a v.core := by
  funext x
  unfold core setVnode
  by_cases hx : x = a
  · subst hx
    simp
  · simp [hx]

theorem core_setData :
    (s.setData a p).core = update s.core a { s.core a with privateData := p.core } := core_setVnode

@[simp] theorem vnodes_release : (s.release a).vnodes = s.vnodes := rfl
@[simp] theorem core_release : (s.release a).core = s.core := rfl
@[simp] theorem stale_release : (s.release a).stale = s.stale := rfl
@[simp] theorem live_release : (s.release a).live = update s.live a false := rfl

end State

open State

variable {s s' : State} {a b dir : Addr} {name : Str} {A : Allocator}

@[simp] theorem live_vnodeRef : (vnodeRef a s).live = s.live := rfl
@[simp] theorem live_vnodeUnref : (vnodeUnref a s).live = s.live := rfl
@[simp] theorem clock_vnodeUnref : (vnodeUnref a s).clock = s.clock := rfl

theorem core_vnodeRef :
    (vnodeRef a s).core = update s.core a { s.core a with refCount := (s.core a).refCount + 1 } := core_setVnode

theorem core_vnodeUnref :
    (vnodeUnref a s).core = update s.core a { s.core a with refCount := (s.core a).refCount - 1 } := core_setVnode

theorem stale_vnodeRef (h : s.live a = true) : (vnodeRef a s).stale = s.stale := by
  unfold vnodeRef
  rw [touch_of_live h]
  rfl

theorem stale_vnodeUnref (h : s.live a = true) : (vnodeUnref a s).stale = s.stale := by
  unfold vnodeUnref
  rw [touch_of_live h]
  rfl

/-! ### Operations that leave the heap alone -/

/-- Same live vnodes, with the same cores, and no access to a released one in between. -/
structure Same (s s' : State) : Prop where
  live : s'.live = s.live
  core : ∀ a, s.live a = true → s'.core a = s.core a
  stale : s'.stale = s.stale

theorem Same.refl (s : State) : Same s s := ⟨rfl, fun _ _ => rfl, rfl⟩

variable {s₁ s₂ : State} {v : Vnode} {d : RamfsDir} {n : ℕ} {e : Err} {data : PrivateData} {type : VnodeType}

theorem Same.trans {s₃ : State} (h : Same s₁ s₂) (h' : Same s₂ s₃) : Same s₁ s₃ :=
  ⟨h'.live.trans h.live, fun a ha => (h'.core a (h.live ▸ ha)).trans (h.core a ha), h'.stale.trans h.stale⟩

theorem Same.clock (s : State) (n : ℕ) : Same s { s with clock := n } := ⟨rfl, fun _ _ => rfl, rfl⟩

theorem allocBlock_same {r : Bool} (h : allocBlock A s = (r, s')) : Same s s' := by
  cases h
  exact Same.clock s _

theorem ramfsLookup_eq {es : List RamfsEntry} (hl : s.live dir = true) (hd : s.entries dir = some es) :
    ramfsLookup dir name s = match es.find? (fun e => e.name = name) with
      | none => (.error .eNotFound, s)
      | some e => (.ok e.vnode, s) := by
  obtain ⟨d, hd1, rfl⟩ := Option.map_eq_some_iff.mp hd
  unfold ramfsLookup dirFindEntry
  rw [touch_of_live hl]
  cases hf : d.entries.find? fun e => e.name = name <;> simp only [hd1, hf]

theorem ramfsLookup_snd : (ramfsLookup dir name s).2 = s.touch dir := by
  unfold ramfsLookup
  dsimp only
  split
  · rfl
  · split <;> rfl

theorem ramfsLookup_ok (h : ramfsLookup dir name s = (.ok a, s')) :
    s' = s.touch dir ∧ ∃ es e, s.entries dir = some es ∧ es.find? (fun e => e.name = name) = some e ∧
      e.vnode = a := by
  have hs : s' = s.touch dir := by
    have h2 := congrArg Prod.snd h
    rw [ramfsLookup_snd] at h2
    exact h2.symm
  refine ⟨hs, ?_⟩
  unfold ramfsLookup at h
  dsimp only at h
  split at h
  · cases h
  · rename_i d hd
    split at h
    · cases h
    · rename_i e he
      injection h with h1 _
      injection h1 with h1
      exact ⟨d.entries, e, entries_of_dir? hd, he, h1⟩

/-! ### Creating an entry -/

theorem newVnode_some (h : newVnode A v s = (some a, s')) :
    s.live a = false ∧ s'.live = update s.live a true ∧ s'.stale = s.stale ∧
      s'.core = update s.core a v.core := by
  unfold newVnode at h
  split at h
  · cases h
  · rename_i a' ha'
    injection h with h1 h2
    injection h1 with h1
    subst h1 h2
    refine ⟨A.fresh _ _ _ ha', rfl, rfl, ?_⟩
    funext x
    by_cases hx : x = a'
    · subst hx
      simp [core]
    · simp [core, hx]

theorem newVnode_none (h : newVnode A v s = (none, s')) : Same s s' := by
  unfold newVnode at h
  split at h
  · cases h
    exact Same.clock s _
  · cases h

theorem ensureDirCapacity_ok {d' : RamfsDir} (hd : s.dir? dir = some d)
    (h : ensureDirCapacity A dir d n s = (.ok d', s')) :
    d'.entries = d.entries ∧ s'.live = s.live ∧ s'.stale = s.stale ∧ s'.core = s.core := by
  unfold ensureDirCapacity at h
  split at h
  · cases h
    exact ⟨rfl, rfl, rfl, rfl⟩
  · dsimp only [allocBlock] at h
    split at h
    · cases h
    · rename_i s1 hs1
      injection hs1 with _ hs1
      injection h with h1 h2
      injection h1 with h1
      subst h1 h2 hs1
      refine ⟨rfl, rfl, rfl, ?_⟩
      rw [core_setData]
      refine update_eq_self_iff.mpr ?_
      have hc := core_of_dir? hd
      change { s.core dir with privateData := .dir ⟨d.entries, 0⟩ } = s.core dir
      rw [← hc]

theorem ensureDirCapacity_error (h : ensureDirCapacity A dir d n s = (.error e, s')) : Same s s' := by
  unfold ensureDirCapacity at h
  split at h
  · cases h
  · rcases hb : allocBlock A s with ⟨r, s1⟩
    rw [hb] at h
    cases r with
    | false =>
      cases h
      exact allocBlock_same hb
    | true => cases h

theorem dirAddEntry_ok (hne : a ≠ dir) (hd : s.dir? dir = some d)
    (h : dirAddEntry A dir d name a s = (.ok (), s')) :
    s'.live = s.live ∧ (s.live a = true → s'.stale = s.stale) ∧
      s'.core a = { s.core a with refCount := (s.core a).refCount + 1 } ∧
      s'.core dir = { s.core dir with privateData := .dir ⟨d.entries ++ [⟨copyName name, a⟩], 0⟩ } ∧
      ∀ x, x ≠ a → x ≠ dir → s'.core x = s.core x := by
  unfold dirAddEntry at h
  split at h
  · cases h
  · rename_i d1 s1 h1
    obtain ⟨he, hl, hst, hc⟩ := ensureDirCapacity_ok hd h1
    cases h
    refine ⟨by simp [hl], fun ha => ?_, ?_, ?_, fun x hxa hxd => ?_⟩
    · rw [stale_setData, stale_vnodeRef (by rw [hl]; exact ha), hst]
    · simp [core_setData, core_vnodeRef, hne, hc]
    · simp [core_setData, core_vnodeRef, hne.symm, hc, he, PrivateData.core]
    · simp [core_setData, core_vnodeRef, hxa, hxd, hc]

theorem dirAddEntry_error (h : dirAddEntry A dir d name a s = (.error e, s')) :
    Same s s' := by
  unfold dirAddEntry at h
  split at h
  · rename_i e1 s1 h1
    cases h
    exact ensureDirCapacity_error h1
  · cases h

/-- A vnode that was allocated and released again leaves no trace. -/
theorem Same.undo (hf : s.live a = false) (hl : s₁.live = update s.live a true)
    (hc : ∀ x, x ≠ a → s₁.core x = s.core x) (hst : s₁.stale = s.stale) (h : Same s₁ s₂) :
    Same s (s₂.release a) := by
  refine ⟨?_, fun x hx => ?_, ?_⟩
  · rw [live_release, h.live, hl, update_idem, ← hf, update_eq_self]
  · have hxa := ne_of_live hx hf
    rw [core_release, h.core x (by rw [hl]; simp [hxa, hx]), hc x hxa]
  · rw [stale_release, h.stale, hst]

/-- A successful `ramfs_create` or `ramfs_mkdir`: one fresh vnode with two references, one new
entry at the end of the directory. -/
structure Made (v : Vnode) (dir : Addr) (name : Str) (s : State) (a : Addr) (s' : State) : Prop where
  fresh : s.live a = false
  live : s'.live = update s.live a true
  stale : s'.stale = s.stale
  node : s'.core a = { v.core with refCount := 2 }
  parent : ∃ es, s.entries dir = some es ∧ es.find? (fun e => e.name = name) = none ∧
    s'.core dir = { s.core dir with privateData := .dir ⟨es ++ [⟨copyName name, a⟩], 0⟩ }
  other : ∀ x, x ≠ a → x ≠ dir → s'.core x = s.core x

/-- What `ramfs_create` and `ramfs_mkdir` leave. -/
inductive MakeCase (v : Vnode) (dir : Addr) (name : Str) (s : State) : Except Err Addr × State → Prop
  | made {a : Addr} {s' : State} (h : Made v dir name s a s') : MakeCase v dir name s (.ok a, s')
  | failed {e : Err} {s' : State} (h : Same s s') : MakeCase v dir name s (.error e, s')

theorem ramfsMake_cases (hdir : s.live dir = true) {x : Except Err Addr × State}
    (h : ramfsMake A type data dir name s = x) : MakeCase ⟨type, data, 1, none⟩ dir name s x := by
  subst h
  unfold ramfsMake
  rw [touch_of_live hdir]
  dsimp only
  split
  · exact .failed (Same.refl s)
  · rename_i d hd
    split
    · exact .failed (Same.refl s)
    · rename_i hfind
      split
      · rename_i s1 h1
        exact .failed (newVnode_none h1)
      · rename_i a1 s1 h1
        obtain ⟨hf1, hl1, hst1, hc1⟩ := newVnode_some h1
        have hne := (ne_of_live hdir hf1).symm
        have hco : ∀ x, x ≠ a1 → s1.core x = s.core x := fun x hx => by rw [hc1]; simp [hx]
        split
        · rename_i s2 h2
          exact .failed (Same.undo hf1 hl1 hco hst1 (allocBlock_same h2))
        · rename_i s2 h2
          have hs2 := allocBlock_same h2
          injection h2 with _ h2
          split
          · rename_i e3 s3 h3
            exact .failed (Same.undo hf1 hl1 hco hst1 (hs2.trans (dirAddEntry_error h3)))
          · rename_i s3 h3
            have hd2 : s2.dir? dir = some d := by
              subst h2
              have hv : s1.vnodes dir = s.vnodes dir := by
                unfold newVnode at h1
                split at h1
                · cases h1
                · injection h1 with h1a h1b
                  injection h1a with h1a
                  subst h1a h1b
                  exact update_of_ne hne.symm _ _
              unfold dir? at hd ⊢
              rw [← hd, ← hv]
            have hc2 : s2.core = s1.core := by subst h2; rfl
            obtain ⟨hl3, hst3, hca, hcd, hother⟩ := dirAddEntry_ok hne hd2 h3
            have hla : s2.live a1 = true := by rw [hs2.live, hl1]; simp
            refine .made ⟨hf1, by rw [hl3, hs2.live, hl1], by rw [hst3 hla, hs2.stale, hst1], ?_,
              ⟨d.entries, entries_of_dir? hd, ?_, ?_⟩, fun x hxa hxd => ?_⟩
            · rw [hca, hc2, hc1]
              simp [Vnode.core]
            · simpa [dirFindEntry] using hfind
            · rw [hcd, hc2, hco dir hne.symm]
            · rw [hother x hxa hxd, hc2, hco x hxa]

/-! ### Removing an entry -/

/-- What `ramfs_unlink` and `ramfs_rmdir` do in a live directory; they remove what is of one type. -/
inductive Removal (type : VnodeType) (dir : Addr) (name : Str) (s : State) : Except Err Unit × State → Prop
  | fault (hd : s.dir? dir = none) : Removal type dir name s (.error .fault, s)
  | missing {d : RamfsDir} (hd : s.dir? dir = some d) (he : dirFindEntry d name = none) :
      Removal type dir name s (.error .eNotFound, s)
  | kept {d : RamfsDir} {e : RamfsEntry} {err : Err} (hd : s.dir? dir = some d) (he : dirFindEntry d name = some e)
      (herr : err ≠ .eNotFound) : Removal type dir name s (.error err, s.touch e.vnode)
  | removed {d : RamfsDir} {e : RamfsEntry} (hd : s.dir? dir = some d) (he : dirFindEntry d name = some e)
      (htype : (s.vnodes e.vnode).type = type) (hdata : s.entries e.vnode = some [] ∨ (s.file? e.vnode).isSome = true) :
      Removal type dir name s (.ok (), releaseEntry dir d name e.vnode (s.touch e.vnode))

theorem ramfsRmdir_cases (hl : s.live dir = true) (name : Str) : Removal .directory dir name s (ramfsRmdir dir name s) := by
  unfold ramfsRmdir
  rw [touch_of_live hl]
  dsimp only
  split
  · exact .fault ‹_›
  · rename_i d hd
    split
    · exact .missing hd ‹_›
    · rename_i e he
      split
      · exact .kept hd he nofun
      · rename_i htype
        split
        · exact .kept hd he nofun
        · rename_i sub hsub
          split
          · exact .kept hd he nofun
          · rename_i hlen
            refine .removed hd he (not_not.1 htype) (.inl ?_)
            exact (entries_of_dir? hsub).trans (by rw [List.eq_nil_of_length_eq_zero (Nat.eq_zero_of_not_pos hlen)])

theorem ramfsUnlink_cases (hl : s.live dir = true) (name : Str) : Removal .file dir name s (ramfsUnlink dir name s) := by
  unfold ramfsUnlink
  rw [touch_of_live hl]
  dsimp only
  split
  · exact .fault ‹_›
  · rename_i d hd
    split
    · exact .missing hd ‹_›
    · rename_i e he
      split
      · exact .kept hd he nofun
      · rename_i htype
        split
        · exact .kept hd he nofun
        · rename_i f hf
          exact .removed hd he (not_not.1 htype) (.inr (Option.isSome_of_eq_some hf))

theorem Removal.ne_overlay {o : OverlayVnode} (h : s.entries a = some [] ∨ (s.file? a).isSome = true)
    (ho : s.overlay? dir = some o) : a ≠ dir := by
  rintro rfl
  rw [entries_eq, file?_eq, core_of_overlay? ho] at h
  rcases h with h | h <;> cases h

end Tori.Fs
