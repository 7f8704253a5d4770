import Tori.Lib.Sum
import Tori.Proofs.FsCreate
import Tori.Proofs.OverlayMerge

/-! Reference counts of RamFS vnodes. `refs` counts the directory entries, the overlay vnodes and the
used descriptors that name a vnode. The calls that keep every count exact are those that look up
nothing through an overlay, hit no whiteout, copy no descriptor of a RamFS vnode and do not start a
process from a RamFS file. -/

namespace Tori.Fs

open Vfs State Function

variable {s s' s₁ s₂ : State} {A : Allocator} {g : Layers} {t : Table Addr}

variable {L : Finset Addr} {y : Sys} {v a dir root : Addr} {q : ℕ} {e : RamfsEntry} {o : OverlayVnode}
  {f : FdTable Addr} {name p : Str} {base : Option Addr}

/-! ### Counting -/

/-- How often the data of a vnode names `a`: once for each directory entry, and once for an overlay
vnode over it. -/
def PrivateData.names (a : Addr) : PrivateData → ℕ
  | .dir d => d.entries.countP fun e => e.vnode = a
  | .file _ => 0
  | .overlay o => if (List.finRange maxLayers).any fun i => o.layerRoots i = some a then 1 else 0

theorem names_core (a : Addr) (p : PrivateData) : p.core.names a = p.names a := by cases p <;> rfl

def nodeRefs (L : Finset Addr) (s : State) (a : Addr) : ℕ := ∑ v ∈ L, (s.core v).privateData.names a

def FileDescriptor.names (a : Addr) (d : FileDescriptor Addr) : ℕ := if d.used ∧ d.vnode = some a then 1 else 0

def fdCount (f : FdTable Addr) (a : Addr) : ℕ := ∑ i, FileDescriptor.names a (f i)

def fdRefs (y : Sys) (a : Addr) : ℕ := ∑ q ∈ y.procs, fdCount (y.fds q) a

/-- All that refers to `a`; `L` are the live vnodes. -/
def refs (L : Finset Addr) (y : Sys) (a : Addr) : ℕ := nodeRefs L y.state a + fdRefs y a

/-- Every live RamFS vnode has a count of one more than what refers to it. -/
def Exact (y : Sys) : Prop :=
  ∃ L : Finset Addr, (∀ a, a ∈ L ↔ y.state.live a = true) ∧
    ∀ a ∈ L, y.state.overlay? a = none → (y.state.vnodes a).refCount = 1 + refs L y a

/-- Moreover, nothing refers to a vnode that is not live, and the mounted roots are directories. -/
structure Counted (L : Finset Addr) (y : Sys) : Prop where
  mem : ∀ a, a ∈ L ↔ y.state.live a = true
  count : ∀ a ∈ L, y.state.overlay? a = none → (y.state.core a).refCount = 1 + refs L y a
  dead : ∀ a, a ∉ L → refs L y a = 0
  root : ∀ r, y.table.rootVnode = some r → y.state.live r = true ∧ (y.state.vnodes r).type = .directory
  mounts : ∀ i e, y.table.mountTable i = some e →
    y.state.live e.mountedRoot = true ∧ (y.state.vnodes e.mountedRoot).type = .directory

theorem Counted.exact (h : Counted L y) : Exact y := ⟨L, h.mem, h.count⟩

theorem nodeRefs_replace (s s' : State) (a : Addr) (hv : v ∈ L)
    (h : ∀ x ∈ L, x ≠ v → (s'.core x).privateData.names a = (s.core x).privateData.names a) :
    nodeRefs L s' a + (s.core v).privateData.names a = nodeRefs L s a + (s'.core v).privateData.names a :=
  sum_replace (fun v => (s.core v).privateData.names a) (fun v => (s'.core v).privateData.names a) hv h

theorem fdCount_update (f : FdTable Addr) (i : Fin maxFds) (d : FileDescriptor Addr) (a : Addr) :
    fdCount (update f i d) a + FileDescriptor.names a (f i) =
      fdCount f a + FileDescriptor.names a d :=
  sum_update (FileDescriptor.names a) f (Finset.mem_univ i) d

theorem fdRefs_update (hq : q ∈ y.procs) (f : FdTable Addr) (s : State) (a : Addr) :
    fdRefs { y with fds := update y.fds q f, state := s } a + fdCount (y.fds q) a =
      fdRefs y a + fdCount f a :=
  sum_update (fdCount · a) y.fds hq f

theorem Counted.named (h : Counted L y) (hv : y.state.live v = true)
    (hn : 0 < (y.state.core v).privateData.names a) : y.state.live a = true := by
  by_contra ha
  have h0 := h.dead a fun hm => ha ((h.mem a).mp hm)
  have hle : (y.state.core v).privateData.names a ≤ nodeRefs L y.state a :=
    Finset.single_le_sum (f := fun v => (y.state.core v).privateData.names a) (fun _ _ => Nat.zero_le _)
      ((h.mem v).mpr hv)
  unfold refs at h0
  omega

variable {es : List RamfsEntry} {flags : BitVec 32} {r : Except Err (Fin maxFds)} {d : RamfsDir} {c : ℕ}

theorem Counted.entry_live (h : Counted L y) {d : Addr}
    (hd : y.state.live d = true) (hes : y.state.entries d = some es) (he : e ∈ es) :
    y.state.live e.vnode = true := by
  refine h.named hd ?_
  rw [core_of_entries hes]
  exact List.countP_pos_iff.mpr ⟨e, he, by simp⟩

theorem names_le_fdRefs (hq : q ∈ y.procs) (i : Fin maxFds) : FileDescriptor.names a (y.fds q i) ≤ fdRefs y a := by
  have h1 : FileDescriptor.names a (y.fds q i) ≤ fdCount (y.fds q) a :=
    Finset.single_le_sum (f := fun i => FileDescriptor.names a (y.fds q i)) (fun _ _ => Nat.zero_le _)
      (Finset.mem_univ i)
  exact h1.trans (Finset.single_le_sum (f := fun q => fdCount (y.fds q) a) (fun _ _ => Nat.zero_le _) hq)

theorem Counted.fd_live (h : Counted L y) (hq : q ∈ y.procs) {i : Fin maxFds}
    (hu : (y.fds q i).used = true) (hv : (y.fds q i).vnode = some a) : y.state.live a = true := by
  by_contra ha
  have h0 := h.dead a fun hm => ha ((h.mem a).mp hm)
  have h1 := names_le_fdRefs (a := a) hq i
  have h2 : FileDescriptor.names a (y.fds q i) = 1 := if_pos ⟨hu, hv⟩
  unfold refs at h0
  omega

/-! ### Steps that keep the counts exact -/

/-- Live vnodes keep their kind and what they name. -/
structure Shape (s s' : State) : Prop where
  live : s'.live = s.live
  type : ∀ a, s.live a = true → (s'.vnodes a).type = (s.vnodes a).type
  names : ∀ a, s.live a = true → ∀ b, (s'.core a).privateData.names b = (s.core a).privateData.names b
  kind : ∀ a, s.live a = true → (s'.overlay? a = none ↔ s.overlay? a = none)

theorem Shape.of_body (hl : s'.live = s.live) (hb : ∀ a, s.live a = true → s'.body a = s.body a) : Shape s s' where
  live := hl
  type a ha := type_of_body (hb a ha)
  names a ha b := by rw [data_of_body (hb a ha)]
  kind a ha := by rw [overlay?_congr (data_of_body (hb a ha))]

theorem RefsOnly.shape (h : RefsOnly s s') : Shape s s' := Shape.of_body h.live fun a _ => h.body a

section

variable (h : Counted L y)
include h

/-- Counts and descriptors may move as long as they move together. -/
theorem Counted.shift {procs : Finset ℕ} {fds : ℕ → FdTable Addr} (hs : Shape y.state s')
    (hcount : ∀ a, y.state.live a = true → y.state.overlay? a = none →
      (s'.core a).refCount + fdRefs y a = (y.state.core a).refCount + fdRefs ⟨y.table, procs, fds, s'⟩ a)
    (hdead : ∀ a, y.state.live a = false → fdRefs ⟨y.table, procs, fds, s'⟩ a = 0) :
    Counted L ⟨y.table, procs, fds, s'⟩ := by
  have hnode : ∀ a, nodeRefs L s' a = nodeRefs L y.state a := fun a =>
    Finset.sum_congr rfl fun v hv => hs.names v ((h.mem v).mp hv) a
  refine ⟨fun a => ?_, fun a ha ho => ?_, fun a ha => ?_, fun r hr => ?_, fun i e he => ?_⟩
  · rw [hs.live]
    exact h.mem a
  · have hl := (h.mem a).mp ha
    have ho' := (hs.kind a hl).mp ho
    have h1 := h.count a ha ho'
    have h2 := hcount a hl ho'
    unfold refs at h1 ⊢
    rw [hnode a]
    change (s'.core a).refCount = _
    omega
  · have h1 := h.dead a ha
    have hl : y.state.live a = false := by
      by_contra hne
      exact ha ((h.mem a).mpr (by simpa using hne))
    unfold refs at h1 ⊢
    rw [hnode a, hdead a hl]
    omega
  · obtain ⟨hl, hty⟩ := h.root r hr
    exact ⟨hs.live ▸ hl, (hs.type r hl).trans hty⟩
  · obtain ⟨hl, hty⟩ := h.mounts i e he
    exact ⟨hs.live ▸ hl, (hs.type _ hl).trans hty⟩

theorem Counted.dead_fds (ha : y.state.live a = false) : fdRefs y a = 0 := by
  have h0 := h.dead a fun hm => by
    rw [(h.mem a).mp hm] at ha
    cases ha
  unfold refs at h0
  omega

/-- Only the counts of overlay vnodes may have changed. -/
theorem Counted.level (hs : Shape y.state s')
    (hc : ∀ a, y.state.live a = true → y.state.overlay? a = none → (s'.core a).refCount = (y.state.core a).refCount) :
    Counted L { y with state := s' } :=
  h.shift hs (fun a ha ho => by rw [hc a ha ho]; rfl) fun _ ha => h.dead_fds ha

theorem Counted.clock (k : ℕ) : Counted L { y with state := { y.state with clock := k } } :=
  h.level (Shape.of_body rfl fun _ _ => rfl) fun _ _ _ => rfl

/-- A descriptor may be replaced by one of a live vnode if the counts move with it. -/
theorem Counted.swapFd (hq : q ∈ y.procs) (i : Fin maxFds) {d : FileDescriptor Addr}
    (hd : d.used = true → LiveOpt y.state d.vnode) (hrefs : RefsOnly y.state s')
    (hcount : ∀ a, y.state.live a = true → y.state.overlay? a = none →
      (s'.core a).refCount + FileDescriptor.names a (y.fds q i) =
        (y.state.core a).refCount + FileDescriptor.names a d) :
    Counted L { y with fds := update y.fds q (update (y.fds q) i d), state := s' } := by
  have hfd : ∀ a, fdRefs { y with fds := update y.fds q (update (y.fds q) i d), state := s' } a +
      FileDescriptor.names a (y.fds q i) = fdRefs y a + FileDescriptor.names a d := by
    intro a
    have h1 := fdRefs_update hq (update (y.fds q) i d) s' a
    have h2 := fdCount_update (y.fds q) i d a
    omega
  refine h.shift hrefs.shape (fun a ha ho => ?_) fun a ha => ?_
  · have h1 := hfd a
    have h2 := hcount a ha ho
    omega
  · have h1 := hfd a
    have h2 := h.dead_fds ha
    have h3 : FileDescriptor.names a d = 0 := if_neg fun hn => by
      rw [hd hn.1 a hn.2] at ha
      cases ha
    omega

/-- `open` takes a reference for the descriptor it fills. -/
theorem Counted.install (hq : q ∈ y.procs) {v : Option Addr}
    (hv : LiveOpt y.state v) (hi : installFd (fsOps A g) v flags (y.fds q) y.state = (r, f, s')) :
    Counted L { y with fds := update y.fds q f, state := s' } := by
  unfold installFd at hi
  split at hi
  · cases hi
    rw [update_eq_self]
    exact h
  · rename_i i hfree
    cases hi
    have hunused : (y.fds q i).used = false := by simpa [findFreeFd] using List.find?_some hfree
    cases v with
    | none =>
      refine h.swapFd hq i (fun _ => hv) (RefsOnly.refl _) fun a _ _ => ?_
      simp [FileDescriptor.names, hunused, VnodeOps.refOpt]
    | some v =>
      refine h.swapFd hq i (fun _ => hv) (RefsOnly.ref v _) fun a _ _ => ?_
      have hc : ((fsOps A g).refOpt (some v) y.state).core = (vnodeRef v y.state).core := rfl
      rw [hc, core_vnodeRef]
      by_cases hav : a = v
      · subst hav
        simp [FileDescriptor.names, hunused]
      · simp [FileDescriptor.names, hunused, hav, Ne.symm hav]

theorem Counted.close (hq : q ∈ y.procs) {fd : ℤ}
    {r : Except Err Unit} (hi : Vfs.close (fsOps A g) fd (y.fds q) y.state = (r, f, s')) :
    Counted L { y with fds := update y.fds q f, state := s' } := by
  unfold Vfs.close at hi
  split at hi
  · cases hi
    rw [update_eq_self]
    exact h
  · rename_i i hd
    cases hi
    have hused := descriptor_used hd
    have hnames : ∀ a, FileDescriptor.names a (y.fds q i) = if (y.fds q i).vnode = some a then 1 else 0 := fun a => by
      simp [FileDescriptor.names, hused]
    have hgone : ∀ a, FileDescriptor.names a { y.fds q i with used := false } = 0 := fun a => by
      simp [FileDescriptor.names]
    cases hv : (y.fds q i).vnode with
    | none =>
      refine h.swapFd hq i (fun hu => by cases hu) (RefsOnly.refl _) fun a _ _ => ?_
      rw [hgone, hnames, hv]
      rfl
    | some v =>
      refine h.swapFd hq i (fun hu => by cases hu) (RefsOnly.unref v _) fun a ha ho => ?_
      have hcount := h.count a ((h.mem a).mpr ha) ho
      have hle := names_le_fdRefs (a := a) hq i
      have hc : ((fsOps A g).unrefOpt (some v) y.state).core = (vnodeUnref v y.state).core := rfl
      rw [hc, core_vnodeUnref, hgone]
      rw [hnames, hv] at hle ⊢
      by_cases hav : a = v
      · subst hav
        rw [if_pos rfl] at hle ⊢
        rw [update_self]
        dsimp only
        omega
      · rw [if_neg fun he => hav (Option.some.inj he).symm, update_of_ne hav]

/-- A new node comes with one reference of its own and one of its entry. -/
theorem Counted.made {v : Vnode}
    (hm : Made v dir name y.state a s') (hd : y.state.live dir = true) (hn : ∀ b, v.privateData.names b = 0) :
    Counted (insert a L) { y with state := s' } := by
  obtain ⟨es, hes, -, hdir⟩ := hm.parent
  have haL : a ∉ L := fun hmem => by
    have hl := (h.mem a).mp hmem
    rw [hm.fresh] at hl
    cases hl
  have hdL : dir ∈ L := (h.mem dir).mpr hd
  have hnode : ∀ b, nodeRefs (insert a L) s' b = nodeRefs L y.state b + if b = a then 1 else 0 := by
    intro b
    have h1 := nodeRefs_replace y.state s' b hdL fun x hx hxd => by
      rw [hm.other x (fun he => haL (he ▸ hx)) hxd]
    have h2 : (s'.core a).privateData.names b = 0 := by
      rw [hm.node]
      exact (names_core b _).trans (hn b)
    have h3 : nodeRefs (insert a L) s' b = (s'.core a).privateData.names b + nodeRefs L s' b :=
      Finset.sum_insert haL
    rw [hdir, core_of_entries hes] at h1
    simp only [PrivateData.names, List.countP_append, List.countP_singleton, decide_eq_true_eq] at h1
    rw [h3, h2]
    by_cases hba : b = a
    · subst hba
      omega
    · rw [if_neg (Ne.symm hba)] at h1
      rw [if_neg hba]
      omega
  have hrefs : ∀ b, refs (insert a L) { y with state := s' } b = refs L y b + if b = a then 1 else 0 := by
    intro b
    have h1 := hnode b
    change nodeRefs (insert a L) s' b + fdRefs y b = nodeRefs L y.state b + fdRefs y b + _
    omega
  have hold : ∀ x, y.state.live x = true → x ≠ a := by
    rintro x hx rfl
    exact haL ((h.mem x).mpr hx)
  have hlive : ∀ x, y.state.live x = true → s'.live x = true := by
    intro x hx
    rw [hm.live, update_of_ne (hold x hx)]
    exact hx
  have htype : ∀ x, y.state.live x = true → (s'.vnodes x).type = (y.state.vnodes x).type := by
    intro x hx
    rw [← type_core, ← type_core]
    by_cases hxd : x = dir
    · rw [hxd, hdir]
    · rw [hm.other x (hold x hx) hxd]
  refine ⟨fun x => ?_, fun x hx ho => ?_, fun x hx => ?_, fun r hr => ?_, fun i e he => ?_⟩
  · rw [hm.live, Finset.mem_insert]
    by_cases hxa : x = a
    · simp [hxa]
    · rw [update_of_ne hxa, ← h.mem x]
      exact or_iff_right hxa
  · rw [hrefs x]
    by_cases hxa : x = a
    · subst hxa
      rw [hm.node, h.dead x haL, if_pos rfl]
    · have hxL := (Finset.mem_insert.mp hx).resolve_left hxa
      rw [if_neg hxa]
      by_cases hxd : x = dir
      · subst hxd
        have hov : y.state.overlay? x = none := by rw [overlay?_eq, core_of_entries hes]
        rw [hdir]
        exact h.count x hxL hov
      · have hc := hm.other x hxa hxd
        have hd' : (s'.core x).privateData = (y.state.core x).privateData := by rw [hc]
        rw [hc]
        exact h.count x hxL ((overlay?_congr hd') ▸ ho)
  · rw [Finset.mem_insert, not_or] at hx
    rw [hrefs x, h.dead x hx.2, if_neg hx.1]
  · obtain ⟨hl, hty⟩ := h.root r hr
    exact ⟨hlive r hl, (htype r hl).trans hty⟩
  · obtain ⟨hl, hty⟩ := h.mounts i e he
    exact ⟨hlive _ hl, (htype _ hl).trans hty⟩

end

theorem countP_eraseP {p : RamfsEntry → Bool} (h : es.find? p = some e)
    (q : RamfsEntry → Bool) : (es.eraseP p).countP q + (if q e then 1 else 0) = es.countP q := by
  induction es with
  | nil => cases h
  | cons x es ih =>
    rw [List.find?_cons] at h
    cases hx : p x with
    | true =>
      rw [hx] at h
      cases h
      rw [List.eraseP_cons_of_pos hx, List.countP_cons]
    | false =>
      rw [hx] at h
      have h1 := ih h
      rw [List.eraseP_cons_of_neg (by simp [hx]), List.countP_cons, List.countP_cons]
      omega

/-- A file whose only reference is its entry is removed together with it. -/
theorem Counted.removed (h : Counted L y)
    {f : RamfsFile} (hr : RefsOnly y.state s₁)
    (hc : ∀ x, x ≠ e.vnode → (s₁.core x).refCount = (y.state.core x).refCount)
    (hd : y.state.live dir = true) (hdir : y.state.dir? dir = some d) (he : dirFindEntry d name = some e)
    (hty : (y.state.vnodes e.vnode).type = .file) (hf : y.state.file? e.vnode = some f)
    (hcount : (y.state.core e.vnode).refCount = 2) :
    Counted (L.erase e.vnode) { y with state := releaseEntry dir d name e.vnode s₁ } := by
  have hes := entries_of_dir? hdir
  have hmem := List.mem_of_find?_eq_some he
  have hlive := h.entry_live hd hes hmem
  have hne : e.vnode ≠ dir := by
    intro heq
    rw [heq, file?_eq, core_of_dir? hdir] at hf
    cases hf
  have hfile := core_of_file? hf
  have hov : y.state.overlay? e.vnode = none := by rw [overlay?_eq, hfile]
  have hdL : dir ∈ L.erase e.vnode := Finset.mem_erase.mpr ⟨hne.symm, (h.mem dir).mpr hd⟩
  let s₂ := releaseEntry dir d name e.vnode s₁
  have hs₂ : s₂ = (vnodeUnref e.vnode (s₁.release e.vnode)).setData dir
      (.dir { d with entries := d.entries.eraseP fun e => e.name = name }) := by
    change releaseEntry dir d name e.vnode s₁ = _
    unfold releaseEntry dirRemoveEntry
    rw [he]
  have hlive₂ : s₂.live = update y.state.live e.vnode false := by
    rw [hs₂, live_setData, live_vnodeUnref, live_release, hr.live]
  have hother : ∀ x, x ≠ e.vnode → x ≠ dir → s₂.core x = s₁.core x := by
    intro x hx hxd
    rw [hs₂, core_setData, update_of_ne hxd, core_vnodeUnref, update_of_ne hx, core_release]
  have hself : s₂.core dir = { s₁.core dir with
      privateData := .dir ⟨d.entries.eraseP fun e => e.name = name, 0⟩ } := by
    rw [hs₂, core_setData, update_self, core_vnodeUnref, update_of_ne hne.symm, core_release]
    rfl
  have hdata : ∀ x, x ≠ e.vnode → x ≠ dir → (s₂.core x).privateData = (y.state.core x).privateData := fun x hx hxd =>
    by rw [hother x hx hxd, data_of_body (hr.body x)]
  have hnode : ∀ b, nodeRefs (L.erase e.vnode) s₂ b + (if b = e.vnode then 1 else 0) = nodeRefs L y.state b := by
    intro b
    have h1 := nodeRefs_replace y.state s₂ b hdL fun x hx hxd => by
      rw [hdata x (Finset.ne_of_mem_erase hx) hxd]
    have h2 : nodeRefs L y.state b = (y.state.core e.vnode).privateData.names b +
        nodeRefs (L.erase e.vnode) y.state b :=
      (Finset.add_sum_erase L (fun v => (y.state.core v).privateData.names b) ((h.mem _).mpr hlive)).symm
    have h3 := countP_eraseP he fun e => e.vnode = b
    rw [hself, core_of_entries hes] at h1
    rw [hfile] at h2
    simp only [PrivateData.names, decide_eq_true_eq] at h1 h2 h3
    have h4 : (if b = e.vnode then 1 else 0) = if e.vnode = b then 1 else 0 := by simp only [eq_comm]
    omega
  have hrefs : ∀ b, refs (L.erase e.vnode) { y with state := s₂ } b + (if b = e.vnode then 1 else 0) = refs L y b := by
    intro b
    have h1 := hnode b
    change nodeRefs (L.erase e.vnode) s₂ b + fdRefs y b + _ = nodeRefs L y.state b + fdRefs y b
    omega
  have hkeep : ∀ x, y.state.live x = true → (y.state.vnodes x).type = .directory →
      s₂.live x = true ∧ (s₂.vnodes x).type = .directory := by
    intro x hx hdirx
    have hxe : x ≠ e.vnode := by
      rintro rfl
      rw [hty] at hdirx
      cases hdirx
    refine ⟨by rw [hlive₂, update_of_ne hxe]; exact hx, ?_⟩
    rw [← hdirx, ← type_of_body (hr.body x), ← type_core, ← type_core]
    by_cases hxd : x = dir
    · rw [hxd, hself]
    · rw [hother x hxe hxd]
  refine ⟨fun x => ?_, fun x hx ho => ?_, fun x hx => ?_, fun r hr => ?_, fun i e' he' => ?_⟩
  · rw [hlive₂, Finset.mem_erase]
    by_cases hxe : x = e.vnode
    · simp [hxe]
    · rw [update_of_ne hxe, ← h.mem x]
      exact and_iff_right hxe
  · obtain ⟨hxe, hxL⟩ := Finset.mem_erase.mp hx
    have h1 := hrefs x
    rw [if_neg hxe] at h1
    change (s₂.core x).refCount = 1 + refs (L.erase e.vnode) { y with state := s₂ } x
    by_cases hxd : x = dir
    · subst hxd
      have hovd : y.state.overlay? x = none := by rw [overlay?_eq, core_of_entries hes]
      have h2 := h.count x hxL hovd
      have h3 := hc x hxe
      rw [hself]
      change (s₁.core x).refCount = _
      omega
    · have hovx : y.state.overlay? x = none := by
        rw [← overlay?_congr (hdata x hxe hxd)]
        exact ho
      have h2 := h.count x hxL hovx
      have h3 := hc x hxe
      rw [hother x hxe hxd]
      omega
  · have h1 := hrefs x
    change refs (L.erase e.vnode) { y with state := s₂ } x = 0
    by_cases hxe : x = e.vnode
    · have h2 := h.count e.vnode ((h.mem _).mpr hlive) hov
      rw [hxe] at h1 ⊢
      rw [if_pos rfl] at h1
      omega
    · have h2 := h.dead x fun hxL => hx (Finset.mem_erase.mpr ⟨hxe, hxL⟩)
      omega
  · obtain ⟨hl, hty'⟩ := h.root r hr
    exact hkeep r hl hty'
  · obtain ⟨hl, hty'⟩ := h.mounts i e' he'
    exact hkeep _ hl hty'

/-! ### Lookups that find nothing -/

/-- No writable layer above `i` holds a whiteout of `name`. -/
def NoWhiteout (g : Layers) (s : State) (o : OverlayVnode) (i : Fin maxLayers) (name : Str) : Prop :=
  ∀ u ∈ g.above i, ∀ root, writableRoot g o u = some root → entryAt s root (makeWhiteoutName name) = none

/-- No layer of the overlay vnode holds `name` or a whiteout of it. -/
def Misses (g : Layers) (s : State) (v : Addr) (name : Str) : Prop :=
  ∀ o, s.overlay? v = some o → ∀ i ∈ g.indices, ∀ root, o.layerRoots i = some root →
    entryAt s root name = none ∧ NoWhiteout g s o i name

theorem NoWhiteout.whiteoutIn {i : Fin maxLayers} (h : NoWhiteout g s o i name) :
    whiteoutIn g s o.layerRoots name (g.above i) = none := by
  refine List.findSome?_eq_none_iff.mpr fun u hu => ?_
  cases hw : g.writable u with
  | false => rfl
  | true =>
    cases hr : o.layerRoots u with
    | none => exact layerEntry_none hr
    | some root =>
      rw [if_pos rfl, layerEntry_some hr]
      exact h u hu root (by rw [writableRoot, if_pos hw, hr])

theorem gather_miss (is : List (Fin maxLayers)) (f : Found)
    (h : ∀ i ∈ is, ∀ root, o.layerRoots i = some root → entryAt s root name = none ∧ NoWhiteout g s o i name) :
    gather g s o.layerRoots name is f = (f, none) := by
  induction is with
  | nil => rfl
  | cons i is ih =>
    have hrest := ih fun i' hi' => h i' (List.mem_cons_of_mem _ hi')
    rw [gather]
    cases hr : o.layerRoots i with
    | none => exact hrest
    | some root =>
      obtain ⟨hmiss, hwh⟩ := h i List.mem_cons_self root hr
      rw [hwh.whiteoutIn, layerEntry_some hr, hmiss]
      exact hrest

section Miss

variable {o : OverlayVnode} (hlive : ∀ i a, o.layerRoots i = some a → s.live a = true)

include hlive

theorem mergeEntries_miss {li : Fin maxLayers} (ds : List Dirent) (m : List MergedEntry)
    (h : ∀ d ∈ ds, hasWhiteoutPrefix d.name = false → NoWhiteout g s o li d.name) :
    (mergeEntries g o li ds m s).2 = s := by
  induction ds generalizing m with
  | nil => rfl
  | cons d ds ih =>
    have hrest := fun m => ih m fun d' hd' => h d' (List.mem_cons_of_mem _ hd')
    rw [mergeEntries]
    split
    · exact hrest m
    · rename_i hpre
      rw [findWhiteout_eq hlive, (h d List.mem_cons_self (by simpa using hpre)).whiteoutIn]
      dsimp only
      split
      · exact hrest m
      · exact hrest _

theorem mergeLayers_miss (is : List (Fin maxLayers)) (m : List MergedEntry)
    (h : ∀ li ∈ is, ∀ root, o.layerRoots li = some root → ∀ d ∈ dirents root s,
      hasWhiteoutPrefix d.name = false → NoWhiteout g s o li d.name) : (mergeLayers g o is m s).2 = s := by
  induction is generalizing m with
  | nil => rfl
  | cons li is ih =>
    have hrest := fun m => ih m fun li' hl' => h li' (List.mem_cons_of_mem _ hl')
    rw [mergeLayers]
    cases hr : o.layerRoots li with
    | none => exact hrest m
    | some root =>
      dsimp only
      rw [touch_of_live (hlive li root hr), mergeEntries_miss hlive _ m (h li List.mem_cons_self root hr)]
      exact hrest _

end Miss

theorem overlayLookup_miss (hu : InUse s v) (h : Misses g s v name) :
    ∃ e k, overlayLookup A g v name s = (.error e, { s with clock := k }) := by
  obtain ⟨hv, o, ho, hroots⟩ := hu
  cases hb : A.block s.clock with
  | false =>
    unfold overlayLookup
    rw [touch_of_live hv]
    simp only [ho, allocBlock, hb]
    exact ⟨_, _, rfl⟩
  | true =>
    rw [overlayLookup_eq hv ho (fun i a hi => (hroots i a hi).1) hb, gather_miss _ _ (h o ho)]
    exact ⟨_, _, rfl⟩

/-! ### Paths that find nothing through an overlay -/

/-- The walk stays in RamFS directories, or fails at an overlay directory that misses the name. -/
def QuietWalk (g : Layers) (t : Table Addr) (s : State) : Option Addr → List Str → Prop
  | _, [] => True
  | none, _ :: _ => True
  | some v, c :: cs => c.length ≤ 255 → (s.vnodes v).type = .directory →
    (isOverlay v s = true → InUse s v ∧ Misses g s v c) ∧
      (isOverlay v s = false → ∀ e, entryAt s v c = some e → QuietWalk g t s (some (resolveMount t e.vnode)) cs)

def QuietPath (g : Layers) (t : Table Addr) (s : State) (base : Option Addr) (p : Str) : Prop :=
  QuietWalk g t s (startOf t base p) (components p)

theorem Counted.mount_live (h : Counted L y) (hv : y.state.live v = true) :
    y.state.live (resolveMount y.table v) = true := by
  rcases resolveMount_cases y.table v with ⟨he, -⟩ | ⟨i, e, hi, -, he⟩
  · rw [he]
    exact hv
  · rw [he]
    exact (h.mounts i e hi).1

theorem stepInto_miss {c : Str} (ho : isOverlay v s = true)
    (h : c.length ≤ 255 → (s.vnodes v).type = .directory → InUse s v ∧ Misses g s v c) :
    ∃ e k, stepInto (fsOps A g) t (some v) c s = (.error e, { s with clock := k }) := by
  unfold stepInto
  split
  · exact ⟨_, s.clock, rfl⟩
  · rename_i hlen
    dsimp only
    split
    · exact ⟨_, s.clock, rfl⟩
    · rename_i hty
      obtain ⟨hu, hm⟩ := h (by omega) (not_not.mp hty)
      obtain ⟨e, k, hlk⟩ := overlayLookup_miss hu hm
      have hlk' : (fsOps A g).lookup v c s = (.error e, { s with clock := k }) := (if_pos ho).trans hlk
      rw [hlk']
      exact ⟨e, k, rfl⟩

/-- The condition does not look at the clock, so it may be read in an earlier state. -/
theorem walk_quiet (h : Counted L y) (cs : List Str) (k₀ : ℕ) {cur : Option Addr}
    (hv : LiveOpt y.state cur) (hq : QuietWalk g y.table y.state cur cs) :
    ∃ r k, walk (fsOps A g) y.table cs cur { y.state with clock := k₀ } = (r, { y.state with clock := k }) ∧
      ∀ w, r = .ok w → LiveOpt y.state w ∧ ∀ w', w = some w' → ∃ v, cur = some v ∧ Leads y.table y.state v cs w' := by
  induction cs generalizing cur with
  | nil =>
    refine ⟨.ok cur, k₀, rfl, fun w hw => ?_⟩
    cases hw
    exact ⟨hv, fun w' hw' => ⟨w', hw', .nil w'⟩⟩
  | cons c cs ih =>
    cases cur with
    | none =>
      by_cases hlen : c.length > 255
      · exact ⟨.error .eInvalid, k₀, by rw [walk, stepInto, if_pos hlen], fun w hw => (by cases hw)⟩
      · exact ⟨.error .fault, k₀, by rw [walk, stepInto, if_neg hlen], fun w hw => (by cases hw)⟩
    | some v =>
      rw [QuietWalk] at hq
      let s₀ : State := { y.state with clock := k₀ }
      cases ho : isOverlay v y.state with
      | true =>
        obtain ⟨e, k, hstep⟩ := stepInto_miss (s := s₀) ho
          fun hlen hty => (hq hlen hty).1 ho
        refine ⟨.error e, k, ?_, fun w hw => (by cases hw)⟩
        rw [walk, hstep]
      | false =>
        rcases stepInto_cases (s := s₀) (hv v rfl) ho c with
          ⟨e, hstep⟩ | ⟨es, e, hstep, hlen, hty, hes, hf⟩
        · refine ⟨.error e, k₀, ?_, fun w hw => (by cases hw)⟩
          rw [walk, hstep]
        · have hes' : y.state.entries v = some es := hes
          have hent : entryAt y.state v c = some e := by
            rw [entryAt, hes']
            exact hf
          have hlive := h.mount_live (h.entry_live (hv v rfl) hes' (List.mem_of_find?_eq_some hf))
          obtain ⟨r, k, hw, hres⟩ := ih (LiveOpt.some hlive) ((hq hlen hty).2 ho e hent)
          refine ⟨r, k, ?_, fun w hr => ⟨(hres w hr).1, fun w' hw' => ⟨v, rfl, ?_⟩⟩⟩
          · rw [walk, hstep]
            exact hw
          · obtain ⟨v', hv', hlead⟩ := (hres w hr).2 w' hw'
            injection hv' with hv'
            subst hv'
            exact .cons (hv v rfl) hty hes' hf hlen hlead

theorem resolve_quiet (h : Counted L y) (k₀ : ℕ)
    (hb : LiveOpt y.state base) (hq : QuietPath g y.table y.state base p) :
    ∃ r k, resolve (fsOps A g) y.table base p { y.state with clock := k₀ } = (r, { y.state with clock := k }) ∧
      ∀ w, r = .ok w → LiveOpt y.state w ∧
        ∀ w', w = some w' → ∃ v, startOf y.table base p = some v ∧ Leads y.table y.state v (components p) w' := by
  have hroot : LiveOpt y.state y.table.rootVnode := fun a ha => (h.root a ha).1
  obtain ⟨r, k, hw, hres⟩ := walk_quiet h (components p) k₀ (startOf_live hroot hb) hq
  rw [resolve_eq_walkFrom]
  rcases walkFrom_cases y.table base p (components p) { y.state with clock := k₀ } with ⟨e, -, he⟩ | ⟨-, he⟩
  · exact ⟨_, k₀, he, fun w hr => (by cases hr)⟩
  · exact ⟨r, k, he.trans hw, hres⟩

/-- The parent directory that `open` would create in is reached quietly and is no overlay vnode. -/
def QuietCreate (g : Layers) (t : Table Addr) (s : State) (base : Option Addr) (p : Str) : Prop :=
  match lastSep p with
  | none => ∀ b, base = some b → isOverlay b s = false
  | some sep => QuietPath g t s base (p.take sep) ∧ ∀ v w, startOf t base (p.take sep) = some v →
      Leads t s v (components (p.take sep)) w → isOverlay w s = false

theorem createIn_counted (h : Counted L y) {parent : Option Addr}
    {r : Except Err Addr} (hp : LiveOpt y.state parent) (ho : ∀ b, parent = some b → isOverlay b y.state = false)
    (hc : createIn (fsOps A g) parent name y.state = (r, s')) :
    ∃ L', Counted L' { y with state := s' } ∧ ∀ v, r = .ok v → s'.live v = true := by
  cases parent with
  | none =>
    cases hc
    exact ⟨L, h, fun v hv => (by cases hv)⟩
  | some d =>
    have hd := hp d rfl
    have hmake : ramfsMake A .file (.file ⟨[], 0⟩) d name y.state = (r, s') := (create_ramfs (ho d rfl)).symm.trans hc
    cases ramfsMake_cases hd hmake with
    | failed hsame =>
      refine ⟨L, h.level (Shape.of_body hsame.live fun a ha => body_of_core (hsame.core a ha)) fun a ha _ => ?_,
        fun v hv => (by cases hv)⟩
      rw [hsame.core a ha]
    | made hm =>
      refine ⟨insert _ L, h.made hm hd fun _ => rfl, fun v hv => ?_⟩
      cases hv
      rw [hm.live, update_self]

theorem createAt_counted (h : Counted L y) (k₀ : ℕ)
    {r : Except Err Addr} (hb : LiveOpt y.state base) (hq : QuietCreate g y.table y.state base p)
    (hc : createAt (fsOps A g) y.table base p { y.state with clock := k₀ } = (r, s')) :
    ∃ L', Counted L' { y with state := s' } ∧ ∀ v, r = .ok v → s'.live v = true := by
  unfold createAt at hc
  unfold QuietCreate at hq
  cases hsep : lastSep p with
  | none =>
    rw [hsep] at hc hq
    exact createIn_counted (h.clock k₀) hb hq hc
  | some sep =>
    rw [hsep] at hc hq
    dsimp only at hc hq
    split at hc
    · cases hc
      exact ⟨L, h.clock k₀, fun v hv => (by cases hv)⟩
    · obtain ⟨r1, k, hres, hw⟩ := resolve_quiet h k₀ hb hq.1
      rw [hres] at hc
      cases r1 with
      | error e =>
        cases hc
        exact ⟨L, h.clock k, fun v hv => (by cases hv)⟩
      | ok parent =>
        obtain ⟨hlive, hlead⟩ := hw parent rfl
        refine createIn_counted (h.clock k) hlive (fun b hpb => ?_) hc
        obtain ⟨v, hs, hl⟩ := hlead b hpb
        exact hq.2 v b hs hl

theorem openPath_counted (h : Counted L y) (hpq : q ∈ y.procs)
    (hb : LiveOpt y.state base)
    (hq : QuietPath g y.table y.state base p) (hcr : flags &&& oCreat ≠ 0 → QuietCreate g y.table y.state base p)
    (ho : openPath (fsOps A g) y.table base p flags (y.fds q) y.state = (r, f, s')) :
    ∃ L', Counted L' { y with fds := update y.fds q f, state := s' } := by
  have fail : ∀ s₂ L₂, Counted L₂ { y with state := s₂ } →
      Counted L₂ { y with fds := update y.fds q (y.fds q), state := s₂ } := by
    intro s₂ L₂ h₂
    rw [update_eq_self]
    exact h₂
  unfold openPath at ho
  split at ho
  · cases ho
    exact ⟨L, fail _ L h⟩
  · obtain ⟨r1, k, hres, hw⟩ := resolve_quiet h y.state.clock hb hq
    rw [hres] at ho
    have hk := h.clock k
    cases r1 with
    | ok v => exact ⟨L, hk.install hpq (hw v rfl).1 ho⟩
    | error e =>
      dsimp only at ho
      split at ho
      · rename_i hcreat
        rcases hc : createAt (fsOps A g) y.table base p { y.state with clock := k } with ⟨r2, s2⟩
        rw [hc] at ho
        obtain ⟨L₂, h₂, hlive⟩ := createAt_counted h k hb (hcr hcreat.2) hc
        cases r2 with
        | error e2 =>
          cases ho
          exact ⟨L₂, fail _ L₂ h₂⟩
        | ok v => exact ⟨L₂, h₂.install hpq (LiveOpt.some (hlive v rfl)) ho⟩
      · cases ho
        exact ⟨L, fail _ L hk⟩

/-! ### The other calls -/

theorem shape_setOverlay {o' : OverlayVnode} (ho : s.overlay? v = some o)
    (hr : o'.layerRoots = o.layerRoots) : Shape s (s.setData v (.overlay o')) := by
  have hst := (setData_overlay_steady ho hr).grows
  have hdata := core_of_overlay? ho
  refine ⟨rfl, hst.type, fun a _ b => ?_, fun a ha => ?_⟩
  · rw [core_setData]
    by_cases hav : a = v
    · subst hav
      rw [update_self, hdata]
      simp only [PrivateData.core, PrivateData.names, hr]
    · rw [update_of_ne hav]
  · have hk := hst.overlay a ha
    unfold isOverlay at hk
    cases h1 : (s.setData v (.overlay o')).overlay? a <;> cases h2 : s.overlay? a <;> simp_all

/-- The merged list is built already, or no entry that goes into it is looked up among whiteouts. -/
def ListsQuietly (g : Layers) (s : State) (v : Addr) : Prop :=
  ∀ o, s.overlay? v = some o → o.cached = true ∨ ∀ li ∈ g.indices, ∀ root, o.layerRoots li = some root →
    ∀ d ∈ dirents root s, hasWhiteoutPrefix d.name = false → NoWhiteout g s o li d.name

theorem buildMergedList_quiet (ho : s.overlay? v = some o)
    (hlive : ∀ i a, o.layerRoots i = some a → s.live a = true) (h : ListsQuietly g s v) :
    ∃ k o', (buildMergedList A g v o s).2 = { s with clock := k } ∨
      (o'.layerRoots = o.layerRoots ∧
        (buildMergedList A g v o s).2 = State.setData v (.overlay o') { s with clock := k }) := by
  unfold buildMergedList
  split
  · exact ⟨s.clock, o, Or.inl rfl⟩
  · rename_i hcached
    split
    · exact ⟨s.clock, { o with merged := [], cached := true }, Or.inr ⟨rfl, rfl⟩⟩
    · dsimp only [allocBlock]
      cases A.block s.clock with
      | false => exact ⟨s.clock + 1, { o with merged := [], cached := true }, Or.inr ⟨rfl, rfl⟩⟩
      | true =>
        have hmerge := mergeLayers_miss (s := { s with clock := s.clock + 1 }) hlive g.indices []
          ((h o ho).resolve_left hcached)
        dsimp only
        rw [hmerge]
        exact ⟨s.clock + 1, { o with merged := _, cached := true }, Or.inr ⟨rfl, rfl⟩⟩

theorem overlayReaddir_counted (h : Counted L y) {offset : ℕ}
    (hu : InUse y.state v) (hq : ListsQuietly g y.state v) :
    Counted L { y with state := (overlayReaddir A g v offset y.state).2 } := by
  obtain ⟨hv, o, ho, hroots⟩ := hu
  have hbuild : Counted L { y with state := (buildMergedList A g v o y.state).2 } := by
    obtain ⟨k, o', hk | ⟨hr, hk⟩⟩ := buildMergedList_quiet ho (fun i a hi => (hroots i a hi).1) hq
    · rw [hk]
      exact h.clock k
    · rw [hk]
      refine (h.clock k).level (shape_setOverlay ho hr) fun a ha hov => ?_
      have hav : a ≠ v := by
        rintro rfl
        have hnone : y.state.overlay? a = none := hov
        rw [ho] at hnone
        cases hnone
      rw [core_setData, update_of_ne hav]
  unfold overlayReaddir
  rw [touch_of_live hv]
  dsimp only
  rw [ho]
  dsimp only
  split <;> exact hbuild

/-- What is unlinked is a file of a writable layer that only its entry refers to. -/
def Unlinkable (g : Layers) (s : State) (v : Addr) (name : Str) : Prop :=
  ∀ o i root e, s.overlay? v = some o → topEntry s o name g.indices = some (i, root, e) →
    g.writable i = true ∧ (s.vnodes e.vnode).type = .file ∧ (s.file? e.vnode).isSome = true ∧
      (s.vnodes e.vnode).refCount = 2

theorem ramfsUnlink_ok (hroot : s.live root = true)
    (hd : s.dir? root = some d) (he : dirFindEntry d name = some e) (hl : s.live e.vnode = true)
    (hty : (s.vnodes e.vnode).type = .file) (hf : (s.file? e.vnode).isSome = true) :
    ramfsUnlink root name s = (.ok (), releaseEntry root d name e.vnode s) := by
  obtain ⟨f, hf⟩ := Option.isSome_iff_exists.mp hf
  unfold ramfsUnlink
  rw [touch_of_live hroot]
  dsimp only
  rw [hd]
  dsimp only
  rw [he]
  dsimp only
  rw [touch_of_live hl, if_neg (not_not.mpr hty), hf]

theorem dir?_vnodeUnref (a b : Addr) : (vnodeUnref a s).dir? b = s.dir? b := by
  unfold vnodeUnref State.dir? State.setVnode
  by_cases hb : b = a
  · subst hb
    simp
  · simp [hb]

theorem overlayUnlink_counted (h : Counted L y)
    (hu : InUse y.state v) (hq : Unlinkable g y.state v name) :
    ∃ L', Counted L' { y with state := (overlayUnlink A g v name y.state).2 } := by
  obtain ⟨hv, o, ho, hroots⟩ := hu
  unfold overlayUnlink
  rw [touch_of_live hv]
  dsimp only
  rw [ho]
  dsimp only
  rw [unlinkLayers_eq _ fun i a hi => (hroots i a hi).1]
  cases htop : topEntry y.state o name g.indices with
  | none => exact ⟨L, h⟩
  | some x =>
    obtain ⟨i, root, e⟩ := x
    obtain ⟨hw, hty, hf, hcount⟩ := hq o i root e ho htop
    obtain ⟨hroot, hent⟩ := topEntry_some htop
    have hrl := (hroots i root hroot).1
    dsimp only
    rw [if_pos hw]
    unfold entryAt at hent
    cases hd : y.state.dir? root with
    | none =>
      rw [State.entries, hd] at hent
      cases hent
    | some d =>
      rw [State.entries, hd] at hent
      obtain ⟨f, hf⟩ := Option.isSome_iff_exists.mp hf
      let s₁ := vnodeUnref e.vnode y.state
      have r1 : RefsOnly y.state s₁ := RefsOnly.unref e.vnode y.state
      have hel := h.entry_live hrl (entries_of_dir? hd) (List.mem_of_find?_eq_some hent)
      have hf₁ : (s₁.file? e.vnode).isSome = true := by
        rw [file?_congr (data_of_body (r1.body e.vnode)), hf]
        rfl
      rw [ramfsUnlink_ok (s := s₁) hrl ((dir?_vnodeUnref _ _).trans hd) hent hel
        ((type_of_body (r1.body e.vnode)).trans hty) hf₁]
      refine ⟨_, h.removed r1 (fun x hx => ?_) hrl hd hent hty hf hcount⟩
      rw [core_vnodeUnref, update_of_ne hx]

theorem fdCount_noFds (a : Addr) : fdCount noFds a = 0 := by
  unfold fdCount FileDescriptor.names noFds
  simp

theorem fdRefs_insert (hc : c ∉ y.procs) (f : FdTable Addr) (s : State) (a : Addr) :
    fdRefs ⟨y.table, insert c y.procs, update y.fds c f, s⟩ a = fdRefs y a + fdCount f a := by
  have hrest : ∑ q ∈ y.procs, fdCount (update y.fds c f q) a = ∑ q ∈ y.procs, fdCount (y.fds q) a :=
    Finset.sum_congr rfl fun q hq => by rw [update_of_ne (ne_of_mem_of_not_mem hq hc)]
  change ∑ q ∈ insert c y.procs, fdCount (update y.fds c f q) a = _
  rw [Finset.sum_insert hc, update_self, hrest]
  exact Nat.add_comm _ _

/-- A process with a descriptor table that names no RamFS vnode. -/
theorem Counted.newProc (h : Counted L y) (hc : c ∉ y.procs)
    (hf : ∀ i a, (f i).used = true → (f i).vnode = some a → y.state.live a = true ∧ isOverlay a y.state = true) :
    Counted L { y with procs := insert c y.procs, fds := update y.fds c f } := by
  have hzero : ∀ a, (y.state.live a = true → y.state.overlay? a = none) → fdCount f a = 0 := by
    intro a ha
    refine Finset.sum_eq_zero fun i _ => if_neg ?_
    rintro ⟨hu, hv⟩
    obtain ⟨hl, ho⟩ := hf i a hu hv
    rw [isOverlay, ha hl] at ho
    cases ho
  refine h.shift (RefsOnly.refl y.state).shape (fun a ha ho => ?_) fun a ha => ?_
  · rw [fdRefs_insert hc, hzero a fun _ => ho]
    rfl
  · rw [fdRefs_insert hc, h.dead_fds ha, hzero a fun hl => by rw [ha] at hl; cases hl]

theorem spawn_counted (h : Counted L y) {path : Str} {child : Option ℕ}
    (hq : QuietPath g y.table y.state none path)
    (hov : ∀ v w, startOf y.table none path = some v → Leads y.table y.state v (components path) w →
      isOverlay w y.state = true)
    (hc : ∀ c, child = some c → c ∉ y.procs) : Counted L (spawn A g path child y) := by
  have hnone : LiveOpt y.state none := fun a ha => by cases ha
  obtain ⟨r, k, hres, hw⟩ := resolve_quiet h y.state.clock hnone hq
  unfold spawn
  rw [hres]
  cases r with
  | error e => exact h.clock k
  | ok file =>
    obtain ⟨hlive, hlead⟩ := hw file rfl
    have hunref : Counted L { y with state := (fsOps A g).unrefOpt file { y.state with clock := k } } := by
      cases file with
      | none => exact h.clock k
      | some w =>
        obtain ⟨v, hv, hl⟩ := hlead w rfl
        have ho := hov v w hv hl
        refine (h.clock k).level (RefsOnly.unref w _).shape fun a ha hnone => ?_
        have haw : a ≠ w := by
          rintro rfl
          have hnone' : y.state.overlay? a = none := hnone
          rw [isOverlay, hnone'] at ho
          cases ho
        change ((vnodeUnref w { y.state with clock := k }).core a).refCount = _
        rw [core_vnodeUnref, update_of_ne haw]
    cases child with
    | none => exact hunref
    | some c => exact hunref.newProc (hc c rfl) fun i a hu _ => (by cases hu)

/-! ### Runs -/

/-- The calls of the run, on live vnodes, under the conditions that keep the counts. -/
def RefCall (g : Layers) (y : Sys) : Call → Prop
  | .resolve base p => LiveOpt y.state base ∧ QuietPath g y.table y.state base p
  | .openPath q base p flags => q ∈ y.procs ∧ LiveOpt y.state base ∧ QuietPath g y.table y.state base p ∧
      (flags &&& oCreat ≠ 0 → QuietCreate g y.table y.state base p)
  | .close q _ => q ∈ y.procs
  | .spawn path child => QuietPath g y.table y.state none path ∧
      (∀ v w, startOf y.table none path = some v → Leads y.table y.state v (components path) w →
        isOverlay w y.state = true) ∧ ∀ c, child = some c → c ∉ y.procs
  | .fork parent child => parent ∈ y.procs ∧ child ∉ y.procs ∧
      ∀ i a, (y.fds parent i).used = true → (y.fds parent i).vnode = some a → isOverlay a y.state = true
  | .exit _ => True
  | .nodeLookup dir name => InUse y.state dir ∧ Misses g y.state dir name
  | .nodeReaddir dir _ => InUse y.state dir ∧ ListsQuietly g y.state dir
  | .nodeUnlink dir name => InUse y.state dir ∧ Unlinkable g y.state dir name
  | _ => False

theorem exec_counted {c : Call} (h : Counted L y) (hc : RefCall g y c) :
    ∃ L', Counted L' (exec A g c y) := by
  cases c with
  | resolve base p =>
    obtain ⟨r, k, hres, -⟩ := resolve_quiet (A := A) h y.state.clock hc.1 hc.2
    dsimp only [exec]
    rw [hres]
    exact ⟨L, h.clock k⟩
  | openPath q base p flags =>
    obtain ⟨hq, hb, hpath, hcr⟩ := hc
    rcases ho : openPath (fsOps A g) y.table base p flags (y.fds q) y.state with ⟨r, f, s'⟩
    dsimp only [exec]
    rw [ho]
    exact openPath_counted h hq hb hpath hcr ho
  | close q fd =>
    rcases ho : Vfs.close (fsOps A g) fd (y.fds q) y.state with ⟨r, f, s'⟩
    dsimp only [exec]
    rw [ho]
    exact ⟨L, h.close hc ho⟩
  | spawn path child => exact ⟨L, spawn_counted h hc.1 hc.2.1 hc.2.2⟩
  | fork parent child =>
    obtain ⟨hp, hc, hov⟩ := hc
    exact ⟨L, h.newProc hc fun i a hu hv => ⟨h.fd_live hp hu hv, hov i a hu hv⟩⟩
  | exit q => exact ⟨L, h⟩
  | nodeLookup dir name =>
    obtain ⟨e, k, hlk⟩ := overlayLookup_miss hc.1 hc.2
    have he : (fsOps A g).lookup dir name y.state = overlayLookup A g dir name y.state := if_pos hc.1.isOverlay
    dsimp only [exec]
    rw [he, hlk]
    exact ⟨L, h.clock k⟩
  | nodeReaddir dir offset =>
    have he : (fsOps A g).readdir dir offset y.state = overlayReaddir A g dir offset y.state := if_pos hc.1.isOverlay
    dsimp only [exec]
    rw [he]
    exact ⟨L, overlayReaddir_counted h hc.1 hc.2⟩
  | nodeUnlink dir name =>
    have he : nodeUnlink A g dir name y.state = overlayUnlink A g dir name y.state := if_pos hc.1.isOverlay
    dsimp only [exec]
    rw [he]
    exact overlayUnlink_counted h hc.1 hc.2
  | mkdir _ _ | read _ _ _ _ | write _ _ _ _ | readdir _ _ | stat _ _ | seek _ _ _ _ | mount _ _ | unmount _
  | setRoot _ | nodeCreate _ _ | nodeMkdir _ _ | nodeRmdir _ _ | nodeRead _ _ _ _ | nodeWrite _ _ _ _ =>
    exact hc.elim

/-- In every state of a run of such calls the reference counts are exact. -/
theorem refcounts_exact {L : Finset Addr} {y₀ y : Sys} (h₀ : Counted L y₀) (hrun : Run A g (RefCall g) y₀ y) :
    Exact y := by
  have h : ∃ L', Counted L' y := hrun.invariant (P := fun y => ∃ L', Counted L' y) ⟨L, h₀⟩ fun y c hy hc => by
    obtain ⟨L', hL⟩ := hy
    exact exec_counted hL hc
  obtain ⟨L', hL⟩ := h
  exact hL.exact

/-! ### The small overlay -/

theorem overTwo_mem (a : Addr) : a ∈ ({1, 2, 4, 8} : Finset Addr) ↔ overTwo.state.live a = true := by
  have hl : overTwo.state.live = update twoTrees.live 8 true := rfl
  rw [hl]
  simp only [Finset.mem_insert, Finset.mem_singleton]
  constructor
  · rintro (rfl | rfl | rfl | rfl) <;> rfl
  · intro h
    by_cases h8 : a = 8
    · exact Or.inr (Or.inr (Or.inr h8))
    · rw [update_of_ne h8] at h
      rcases twoTrees_live h with h1 | h2 | h4
      · exact Or.inl h1
      · exact Or.inr (Or.inl h2)
      · exact Or.inr (Or.inr (Or.inl h4))

/-- Vnode 2 has an entry for vnode 4, and vnode 8 is an overlay vnode over 1 and 2. -/
theorem overTwo_refs (a : Addr) :
    refs {1, 2, 4, 8} overTwo a = (if 4 = a then 1 else 0) + if a = 1 ∨ a = 2 then 1 else 0 := by
  have hfd : fdRefs overTwo a = 0 := Finset.sum_eq_zero fun q _ => fdCount_noFds a
  have h1 : (overTwo.state.core 1).privateData.names a = 0 := rfl
  have h2 : (overTwo.state.core 2).privateData.names a = if 4 = a then 1 else 0 := by
    change ([⟨[102], 4⟩] : List RamfsEntry).countP (fun e => e.vnode = a) = _
    simp [List.countP_singleton]
  have h4 : (overTwo.state.core 4).privateData.names a = 0 := rfl
  have h8 : (overTwo.state.core 8).privateData.names a = if a = 1 ∨ a = 2 then 1 else 0 := by
    change (if (List.finRange maxLayers).any fun i => rootLayers upperLower i = some a then 1 else 0) = _
    have hany : ((List.finRange maxLayers).any fun i => rootLayers upperLower i = some a) = true ↔ a = 1 ∨ a = 2 := by
      rw [List.any_eq_true]
      constructor
      · rintro ⟨i, -, hi⟩
        have hi' : rootLayers upperLower i = some a := by simpa using hi
        unfold rootLayers upperLower at hi'
        split at hi'
        · dsimp only at hi'
          split at hi' <;> cases hi' <;> simp
        · cases hi'
      · rintro (rfl | rfl)
        · exact ⟨0, List.mem_finRange 0, rfl⟩
        · exact ⟨1, List.mem_finRange 1, rfl⟩
    simp only [hany]
  unfold refs nodeRefs
  rw [hfd, Finset.sum_insert (by decide), Finset.sum_insert (by decide), Finset.sum_insert (by decide),
    Finset.sum_singleton, h1, h2, h4, h8]
  omega

theorem overTwo_counted : Counted {1, 2, 4, 8} overTwo := by
  refine ⟨overTwo_mem, fun a ha ho => ?_, fun a ha => ?_, fun r hr => ?_, fun i e he => (by cases he)⟩
  · rw [overTwo_refs a]
    simp only [Finset.mem_insert, Finset.mem_singleton] at ha
    rcases ha with rfl | rfl | rfl | rfl
    · rfl
    · rfl
    · rfl
    · cases ho
  · rw [overTwo_refs a]
    simp only [Finset.mem_insert, Finset.mem_singleton, not_or] at ha
    rw [if_neg (Ne.symm ha.2.2.1), if_neg fun h => h.elim ha.1 ha.2.1]
  · cases hr
    exact ⟨rfl, rfl⟩

/-- `open("g", O_CREAT)` in vnode 1. -/
theorem refcounts_exact_open : Exact (exec bump upperLower (.openPath 0 (some 1) [103] oCreat) overTwo) := by
  refine refcounts_exact overTwo_counted (.step .start ?_)
  refine ⟨Finset.mem_singleton_self 0, LiveOpt.some rfl, fun _ _ => ⟨fun ho => (by cases ho), fun _ e he => (by cases he)⟩,
    fun _ b hb => ?_⟩
  cases hb
  rfl

/-- `overlay_lookup(root, "f")` puts vnode 4 into a new overlay vnode without taking a reference. -/
theorem refcounts_drift : Exact overTwo ∧
    ∃ y, Run bump upperLower (fun y c => ∃ dir name, c = .nodeLookup dir name ∧ InUse y.state dir) overTwo y ∧
      ¬ Exact y := by
  refine ⟨overTwo_counted.exact, _, .step .start ⟨8, [102], rfl, overTwo_inUse⟩, ?_⟩
  rintro ⟨L, hmem, hcount⟩
  have h4 := hcount 4 ((hmem 4).mpr rfl) rfl
  have hsub : ({2, 10} : Finset Addr) ⊆ L := by
    intro x hx
    rw [Finset.mem_insert, Finset.mem_singleton] at hx
    rcases hx with rfl | rfl
    · exact (hmem 2).mpr rfl
    · exact (hmem 10).mpr rfl
  have hle : nodeRefs {2, 10} (exec bump upperLower (.nodeLookup 8 [102]) overTwo).state 4 ≤
      nodeRefs L (exec bump upperLower (.nodeLookup 8 [102]) overTwo).state 4 :=
    Finset.sum_le_sum_of_subset hsub
  have htwo : nodeRefs {2, 10} (exec bump upperLower (.nodeLookup 8 [102]) overTwo).state 4 = 2 := rfl
  have hrc : ((exec bump upperLower (.nodeLookup 8 [102]) overTwo).state.vnodes 4).refCount = 2 := rfl
  unfold refs at h4
  omega

end Tori.Fs
