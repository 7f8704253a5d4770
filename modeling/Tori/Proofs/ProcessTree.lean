import Tori.Proofs.ProcessPids

/-! The process tree. `kids p` is the child list of `p`. Each list operation is first described for the
lists alone (`Kin`), then with the parent pointers (`Tree`). -/

namespace Tori.Proc

open Word Loop DList Function

variable {s s' : State} {procs : List Addr} {kids : Addr → List Addr}

variable {p c x a q d n : Addr} {ys : List Addr} {parent : Option Addr} {pml4Phys fuel : ℕ}

abbrev childNext (s : State) (a : Addr) : Option Addr := (s.proc a).childNext

abbrev childPrev (s : State) (a : Addr) : Option Addr := (s.proc a).childPrev

/-! ### Child lists -/

/-- The child lists of `procs`: well linked, disjoint, and with no links left on other processes. -/
structure Kin (s : State) (procs : List Addr) (kids : Addr → List Addr) : Prop where
  linked : ∀ p ∈ procs, Linked (childNext s) (childPrev s) (kids p)
  headOf : ∀ p ∈ procs, (s.proc p).childHead = (kids p).head?
  tailOf : ∀ p ∈ procs, (s.proc p).childTail = (kids p).getLast?
  sub : ∀ p ∈ procs, ∀ q ∈ kids p, q ∈ procs
  once : ∀ p ∈ procs, ∀ p' ∈ procs, ∀ q, q ∈ kids p → q ∈ kids p' → p = p'
  loose : ∀ q ∈ procs, (∀ p ∈ procs, q ∉ kids p) → childNext s q = none ∧ childPrev s q = none

theorem Kin.congr {kids' : Addr → List Addr} (h : Kin s procs kids) (hk : ∀ a ∈ procs, (s'.proc a).kin = (s.proc a).kin)
    (hkids : ∀ p ∈ procs, kids' p = kids p) : Kin s' procs kids' := by
  have hn : ∀ a ∈ procs, childNext s' a = childNext s a := fun a ha => field_eq (hk a ha) _ fun _ => rfl
  have hp : ∀ a ∈ procs, childPrev s' a = childPrev s a := fun a ha => field_eq (hk a ha) _ fun _ => rfl
  refine ⟨fun p hpp => ?_, fun p hpp => ?_, fun p hpp => ?_, fun p hpp => ?_, fun p hpp p' hpp' q hq hq' => ?_,
    fun q hq hno => ?_⟩
  · rw [hkids p hpp]
    exact (h.linked p hpp).congr (fun x hx => hn x (h.sub p hpp x hx)) fun x hx => hp x (h.sub p hpp x hx)
  · rw [hkids p hpp, ← h.headOf p hpp]
    exact field_eq (hk p hpp) _ fun _ => rfl
  · rw [hkids p hpp, ← h.tailOf p hpp]
    exact field_eq (hk p hpp) _ fun _ => rfl
  · rw [hkids p hpp]
    exact h.sub p hpp
  · rw [hkids p hpp] at hq
    rw [hkids p' hpp'] at hq'
    exact h.once p hpp p' hpp' q hq hq'
  · rw [hn q hq, hp q hq]
    exact h.loose q hq fun p hpp => hkids p hpp ▸ hno p hpp

variable {l zs : List Addr} {kids' : Addr → List Addr} {pid : ℕ} {β : Type}

section

variable (h : Kin s procs kids)
include h

/-- The child list of `p` becomes `l`, and the links of the other lists stay. -/
theorem Kin.replace (hp : p ∈ procs) (hl : Linked (childNext s') (childPrev s') l)
    (hhead : ∀ q, (s'.proc q).childHead = if q = p then l.head? else (s.proc q).childHead)
    (htail : ∀ q, (s'.proc q).childTail = if q = p then l.getLast? else (s.proc q).childTail)
    (hnew : ∀ x ∈ l, x ∈ procs ∧ ∀ q ∈ procs, q ≠ p → x ∉ kids q)
    (hkeep : ∀ q ∈ procs, q ≠ p → ∀ y ∈ kids q, childNext s' y = childNext s y ∧ childPrev s' y = childPrev s y)
    (hloose : ∀ q ∈ procs, q ∉ l → (∀ r ∈ procs, r ≠ p → q ∉ kids r) → childNext s' q = none ∧ childPrev s' q = none) :
    Kin s' procs (update kids p l) := by
  refine ⟨fun q hq => ?_, fun q hq => ?_, fun q hq => ?_, fun q hq x hx => ?_, fun q hq q' hq' x hx hx' => ?_,
    fun q hq hno => ?_⟩
  · by_cases hqp : q = p
    · rwa [hqp, update_self]
    · rw [update_of_ne hqp]
      exact (h.linked q hq).congr (fun y hy => (hkeep q hq hqp y hy).1) fun y hy => (hkeep q hq hqp y hy).2
  · rw [hhead, update_apply]
    split_ifs
    · rfl
    · exact h.headOf q hq
  · rw [htail, update_apply]
    split_ifs
    · rfl
    · exact h.tailOf q hq
  · rw [update_apply] at hx
    split_ifs at hx
    · exact (hnew x hx).1
    · exact h.sub q hq x hx
  · rw [update_apply] at hx hx'
    split_ifs at hx hx' with hqp hqp' hqp'
    · rw [hqp, hqp']
    · exact absurd hx' ((hnew x hx).2 q' hq' hqp')
    · exact absurd hx ((hnew x hx').2 q hq hqp)
    · exact h.once q hq q' hq' x hx hx'
  · refine hloose q hq ?_ fun r hr hrp => ?_
    · have := hno p hp
      rwa [update_self] at this
    · have := hno r hr
      rwa [update_of_ne hrp] at this

theorem Kin.link (hp : p ∈ procs) (hc : c ∈ procs) (hfree : ∀ p ∈ procs, c ∉ kids p) :
    Kin (linkChild p c s) procs (update kids p (kids p ++ [c])) := by
  have htail := h.tailOf p hp
  have hcp := hfree p hp
  have hnext : ∀ y, childNext (linkChild p c s) y =
      if (kids p).getLast? = some y then some c else if y = c then none else childNext s y := fun y => by
    rw [childNext, linkChild_proc, htail]
  have hprev : ∀ y, childPrev (linkChild p c s) y = if y = c then (kids p).getLast? else childPrev s y := fun y => by
    rw [childPrev, linkChild_proc, htail]
  have hlast : ∀ {y}, y ∉ kids p → (kids p).getLast? ≠ some y := fun hy he => hy (List.mem_of_mem_getLast? he)
  refine h.replace hp ?_ (fun q => ?_) (fun q => ?_) (fun x hx => ?_) (fun q hq hqp y hy => ?_) fun q hq hql hno => ?_
  · refine (h.linked p hp).snoc hcp (fun y hy => ?_) (fun y hy hne => ?_) ?_ (fun y hy => ?_) ?_
    · rw [hnext, if_pos hy]
    · rw [hnext, if_neg hne, if_neg (ne_of_mem_of_not_mem hy hcp)]
    · rw [hnext, if_neg (hlast hcp), if_pos rfl]
    · rw [hprev, if_neg (ne_of_mem_of_not_mem hy hcp)]
    · rw [hprev, if_pos rfl]
  · simp only [linkChild_proc, htail]
    by_cases hqp : q = p
    · subst hqp
      rw [h.headOf q hp]
      cases hk : kids q <;> simp
    · rw [if_neg fun he => hqp he.1, if_neg hqp]
  · rw [linkChild_proc, List.getLast?_concat]
  · rw [List.mem_append, List.mem_singleton] at hx
    rcases hx with hx | rfl
    · exact ⟨h.sub p hp x hx, fun q hq hqp hxq => hqp (h.once q hq p hp x hxq hx)⟩
    · exact ⟨hc, fun q hq _ => hfree q hq⟩
  · have hyp : y ∉ kids p := fun hyp => hqp (h.once q hq p hp y hy hyp)
    rw [hnext, hprev, if_neg (hlast hyp), if_neg (ne_of_mem_of_not_mem hy (hfree q hq))]
    exact ⟨rfl, if_neg (ne_of_mem_of_not_mem hy (hfree q hq))⟩
  · rw [List.mem_append, List.mem_singleton, not_or] at hql
    rw [hnext, hprev, if_neg (hlast hql.1), if_neg hql.2, if_neg hql.2]
    exact h.loose q hq fun r hr => if hrp : r = p then hrp ▸ hql.1 else hno r hr hrp

theorem Kin.unlink (hp : p ∈ procs)
    (hk : kids p = ys ++ c :: zs) : Kin (unlinkChild p c s) procs (update kids p (ys ++ zs)) := by
  have hl := h.linked p hp
  rw [hk] at hl
  have hcn : (s.proc c).childNext = zs.head? := hl.next_eq ys c zs rfl
  have hcp : (s.proc c).childPrev = ys.getLast? := hl.prev_eq ys c zs rfl
  have hcmem : c ∈ kids p := by rw [hk]; simp
  have hnext : ∀ y, childNext (unlinkChild p c s) y =
      if y = c then none else if ys.getLast? = some y then zs.head? else childNext s y := fun y => by
    rw [childNext, unlinkChild_proc, hcn, hcp]
  have hprev : ∀ y, childPrev (unlinkChild p c s) y =
      if y = c then none else if zs.head? = some y then ys.getLast? else childPrev s y := fun y => by
    rw [childPrev, unlinkChild_proc, hcn, hcp]
  have hsplit : ∀ y, y ∈ ys ++ zs ↔ y ∈ kids p ∧ y ≠ c := fun y => by
    rw [hk]
    exact mem_split hl.nodup
  have hlast : ∀ y, ys.getLast? = some y → y ∈ kids p ∧ y ≠ c := fun y hy =>
    (hsplit y).mp (List.mem_append_left _ (List.mem_of_mem_getLast? hy))
  have hhead : ∀ y, zs.head? = some y → y ∈ kids p ∧ y ≠ c := fun y hy =>
    (hsplit y).mp (List.mem_append_right _ (List.mem_of_mem_head? hy))
  have hkeep : ∀ y ∉ kids p, childNext (unlinkChild p c s) y = childNext s y ∧
      childPrev (unlinkChild p c s) y = childPrev s y := fun y hy => by
    have hyc := (ne_of_mem_of_not_mem hcmem hy).symm
    rw [hnext, hprev, if_neg hyc, if_neg hyc, if_neg fun he => hy (hlast y he).1, if_neg fun he => hy (hhead y he).1]
    exact ⟨rfl, rfl⟩
  refine h.replace hp ?_ (fun q => ?_) (fun q => ?_) (fun x hx => ?_) (fun q hq hqp y hy => ?_) fun q hq hql hno => ?_
  · refine hl.remove (fun y hy => ?_) (fun y hy hne => ?_) (fun y hy => ?_) fun y hy hne => ?_
    · rw [hnext, if_neg (hlast y hy).2, if_pos hy]
    · rw [hnext, if_neg ((hsplit y).mp hy).2, if_neg hne]
    · rw [hprev, if_neg (hhead y hy).2, if_pos hy]
    · rw [hprev, if_neg ((hsplit y).mp hy).2, if_neg hne]
  · simp only [unlinkChild_proc, hcp, hcn]
    by_cases hqp : q = p
    · subst hqp
      rw [h.headOf q hp, hk]
      cases ys <;> simp
    · rw [if_neg fun he => hqp he.1, if_neg hqp]
  · simp only [unlinkChild_proc, hcp, hcn]
    by_cases hqp : q = p
    · subst hqp
      rw [h.tailOf q hp, hk]
      cases zs <;> simp [List.getLast?_append]
    · rw [if_neg fun he => hqp he.1, if_neg hqp]
  · have hxp := ((hsplit x).mp hx).1
    exact ⟨h.sub p hp x hxp, fun q hq hqp hxq => hqp (h.once q hq p hp x hxq hxp)⟩
  · exact hkeep y fun hyp => hqp (h.once q hq p hp y hy hyp)
  · by_cases hqc : q = c
    · rw [hnext, hprev, if_pos hqc, if_pos hqc]
      exact ⟨rfl, rfl⟩
    · have hqp : q ∉ kids p := fun hqp => hql ((hsplit q).mpr ⟨hqp, hqc⟩)
      rw [(hkeep q hqp).1, (hkeep q hqp).2]
      exact h.loose q hq fun r hr => if hrp : r = p then hrp ▸ hqp else hno r hr hrp

/-- A process without children that is no child leaves the lists of the others alone. -/
theorem Kin.drop (hnd : procs.Nodup) (hfree : ∀ p ∈ procs, x ∉ kids p)
    (hnone : kids x = []) : Kin s (procs.erase x) kids := by
  have hsub : ∀ {p}, p ∈ procs.erase x → p ∈ procs := fun hp => List.mem_of_mem_erase hp
  refine ⟨fun p hp => h.linked p (hsub hp), fun p hp => h.headOf p (hsub hp), fun p hp => h.tailOf p (hsub hp),
    fun p hp q hq => ?_, fun p hp p' hp' => h.once p (hsub hp) p' (hsub hp'), fun q hq hno => ?_⟩
  · exact (List.Nodup.mem_erase_iff hnd).mpr ⟨fun he => hfree p (hsub hp) (he ▸ hq), h.sub p (hsub hp) q hq⟩
  · refine h.loose q (hsub hq) fun p hp => ?_
    by_cases hpx : p = x
    · rw [hpx, hnone]
      exact List.not_mem_nil
    · exact hno p ((List.Nodup.mem_erase_iff hnd).mpr ⟨hpx, hp⟩)

/-- A new process has no children and is nobody's child yet. -/
theorem Kin.insert (ha : a ∉ procs) : Kin (blank a s) (a :: procs) (update kids a []) := by
  have hself : (blank a s).proc a = .zero := update_self _ _ _
  have hold : Kin (blank a s) procs (update kids a []) := by
    refine h.congr (fun x hx => ?_) fun p hp => update_of_ne (ne_of_mem_of_not_mem hp ha) _ _
    exact congrArg Process.kin (update_of_ne (ne_of_mem_of_not_mem hx ha) _ _)
  have hnone : ∀ {q}, q ∉ update kids a [] a := fun {q} hq => by
    rw [update_self] at hq
    cases hq
  refine ⟨fun p hp => ?_, fun p hp => ?_, fun p hp => ?_, fun p hp q hq => ?_, fun p hp p' hp' q hq hq' => ?_,
    fun q hq hno => ?_⟩
  · rcases List.mem_cons.mp hp with rfl | hp
    · rw [update_self]
      exact Linked.nil
    · exact hold.linked p hp
  · rcases List.mem_cons.mp hp with rfl | hp
    · rw [update_self, hself]
      rfl
    · exact hold.headOf p hp
  · rcases List.mem_cons.mp hp with rfl | hp
    · rw [update_self, hself]
      rfl
    · exact hold.tailOf p hp
  · rcases List.mem_cons.mp hp with rfl | hp
    · exact absurd hq hnone
    · exact List.mem_cons_of_mem _ (hold.sub p hp q hq)
  · rcases List.mem_cons.mp hp with rfl | hp
    · exact absurd hq hnone
    · rcases List.mem_cons.mp hp' with rfl | hp'
      · exact absurd hq' hnone
      · exact hold.once p hp p' hp' q hq hq'
  · rcases List.mem_cons.mp hq with rfl | hq
    · rw [childNext, childPrev, hself]
      exact ⟨rfl, rfl⟩
    · exact hold.loose q hq fun p hp => hno p (List.mem_cons_of_mem _ hp)

end

/-! ### With parent pointers -/

/-- The lists agree with the parent pointers, and `init` is the root of the tree. -/
structure Tree (s : State) (procs : List Addr) (kids : Addr → List Addr) (init : Addr) : Prop where
  listed : Listed s procs
  kin : Kin s procs kids
  child : ∀ p ∈ procs, ∀ q ∈ procs, q ∈ kids p ↔ (s.proc q).parent = some p
  parent : ∀ q ∈ procs, ∀ p, (s.proc q).parent = some p → p ∈ procs
  initMem : init ∈ procs
  initPid : (s.proc init).pid = 0
  initParent : (s.proc init).parent = none

variable {init : Addr}

/-- The fields that have nothing to do with the tree. -/
def Process.noTree (p : Process) : Process := { p.noKin with parent := none }

/-- The fields that `Tree` reads. -/
def Process.links (p : Process) : (Option Addr × Option Addr × ℕ) × Process × Option Addr := (p.listing, p.kin, p.parent)

theorem Tree.congr (h : Tree s procs kids init) (ht : SameTables s s')
    (hl : ∀ a ∈ procs, (s'.proc a).links = (s.proc a).links) : Tree s' procs kids init := by
  have hlist : ∀ a ∈ procs, (s'.proc a).listing = (s.proc a).listing := fun a ha => congrArg Prod.fst (hl a ha)
  have hk : ∀ a ∈ procs, (s'.proc a).kin = (s.proc a).kin := fun a ha => congrArg (fun l => l.2.1) (hl a ha)
  have hpar : ∀ a ∈ procs, (s'.proc a).parent = (s.proc a).parent := fun a ha => congrArg (fun l => l.2.2) (hl a ha)
  refine ⟨h.listed.congr ht hlist, h.kin.congr hk fun _ _ => rfl, fun p hpp q hq => ?_, fun q hq p hqp => ?_, h.initMem,
    ?_, ?_⟩
  · rw [hpar q hq]
    exact h.child p hpp q hq
  · rw [hpar q hq] at hqp
    exact h.parent q hq p hqp
  · exact (congrArg (fun l => l.2.2) (hlist _ h.initMem)).trans h.initPid
  · rw [hpar _ h.initMem]
    exact h.initParent

theorem Tree.modify (h : Tree s procs kids init) (x : Addr) (f : Process → Process) (hf : ∀ p, (f p).links = p.links) :
    Tree (s.modify x f) procs kids init :=
  h.congr (SameTables.modify x f s) fun a _ => proc_modify_same Process.links x a s hf

theorem Tree.kid_ne_init (h : Tree s procs kids init) (hp : p ∈ procs) (hq : q ∈ kids p) : q ≠ init := by
  rintro rfl
  have := (h.child p hp q h.initMem).mp hq
  rw [h.initParent] at this
  cases this

/-- The child list of the parent after `process_create`. -/
def addKid (kids : Addr → List Addr) (a : Addr) : Option Addr → Addr → List Addr
  | none => update kids a []
  | some p => update (update kids a []) p (kids p ++ [a])

theorem addKid_mem (ha : a ∉ procs) (hpar : ∀ p, parent = some p → p ∈ procs)
    (hp : p ∈ a :: procs) :
    q ∈ addKid kids a parent p ↔ (p ∈ procs ∧ q ∈ kids p) ∨ (q = a ∧ parent = some p) := by
  have hnew : ∀ {p}, p ∈ a :: procs → (q ∈ update kids a [] p ↔ p ∈ procs ∧ q ∈ kids p) := by
    intro p hp
    by_cases hpa : p = a
    · subst hpa
      rw [update_self]
      exact ⟨fun hq => (nomatch hq), fun hq => absurd hq.1 ha⟩
    · rw [update_of_ne hpa]
      exact ⟨fun hq => ⟨(List.mem_cons.mp hp).resolve_left hpa, hq⟩, And.right⟩
  cases parent with
  | none => simpa [addKid] using hnew hp
  | some r =>
    have hr := hpar r rfl
    simp only [addKid]
    by_cases hpr : p = r
    · subst hpr
      rw [update_self, List.mem_append, List.mem_singleton]
      simp [hr]
    · rw [update_of_ne hpr, hnew hp]
      simp [Ne.symm hpr]

theorem Tree.created (h : Tree s procs kids init) (ha : a ∉ procs)
    (hpar : ∀ p, parent = some p → p ∈ procs) (hc : Created a pid pml4Phys parent s s') :
    Tree s' (a :: procs) (addKid kids a parent) init := by
  have hparent : ∀ x ∈ procs, (s'.proc x).parent = (s.proc x).parent := fun x hx =>
    hc.field Process.parent (fun _ => rfl) (ne_of_mem_of_not_mem hx ha)
  have hparenta : (s'.proc a).parent = parent := by
    exact congrArg Process.parent hc.record
  have hkin : Kin s' (a :: procs) (addKid kids a parent) := by
    have h1 := h.kin.insert ha
    cases parent with
    | none => exact h1.congr (fun x _ => hc.kin x) fun _ _ => rfl
    | some p =>
      have hp := hpar p rfl
      have hpa : p ≠ a := ne_of_mem_of_not_mem hp ha
      have h2 := h1.link (List.mem_cons_of_mem _ hp) List.mem_cons_self fun q hq hmem => by
        by_cases hqa : q = a
        · rw [hqa, update_self] at hmem
          cases hmem
        · rw [update_of_ne hqa] at hmem
          exact ha (h.kin.sub q ((List.mem_cons.mp hq).resolve_left hqa) a hmem)
      rw [update_of_ne hpa] at h2
      exact h2.congr (fun x _ => hc.kin x) fun _ _ => rfl
  refine ⟨h.listed.created ha hc, hkin, fun p hp q hq => ?_, fun q hq p hqp => ?_, List.mem_cons_of_mem _ h.initMem, ?_, ?_⟩
  · rw [addKid_mem ha hpar hp]
    rcases List.mem_cons.mp hq with rfl | hq
    · rw [hparenta]
      constructor
      · rintro (⟨hp', hqp⟩ | ⟨-, hpp⟩)
        · exact absurd (h.kin.sub p hp' q hqp) ha
        · exact hpp
      · exact fun hpp => Or.inr ⟨rfl, hpp⟩
    · have hqa := ne_of_mem_of_not_mem hq ha
      rw [hparent q hq]
      constructor
      · rintro (⟨hp', hqp⟩ | ⟨he, -⟩)
        · exact (h.child p hp' q hq).mp hqp
        · exact absurd he hqa
      · intro hqp
        have hp' := h.parent q hq p hqp
        exact Or.inl ⟨hp', (h.child p hp' q hq).mpr hqp⟩
  · rcases List.mem_cons.mp hq with rfl | hq
    · rw [hparenta] at hqp
      exact List.mem_cons_of_mem _ (hpar p hqp)
    · rw [hparent q hq] at hqp
      exact List.mem_cons_of_mem _ (h.parent q hq p hqp)
  · rw [hc.field Process.pid (fun _ => rfl) (ne_of_mem_of_not_mem h.initMem ha)]
    exact h.initPid
  · rw [hparent _ h.initMem]
    exact h.initParent

theorem erase_split (hnd : (ys ++ x :: zs).Nodup) : (ys ++ x :: zs).erase x = ys ++ zs := by
  have hx : x ∉ ys := fun hy => (List.disjoint_of_nodup_append hnd) hy List.mem_cons_self
  rw [List.erase_append_right _ hx, List.erase_cons_head]

theorem Tree.reaped (h : Tree s procs kids init) (hx : x ∈ procs) (hinit : x ≠ init) (hnone : kids x = [])
    (hr : Reaped x s s') : Tree s' (procs.erase x) (fun p => (kids p).erase x) init := by
  have hnd := h.listed.linked.nodup
  have hmem : ∀ {y}, y ∈ procs.erase x ↔ y ≠ x ∧ y ∈ procs := List.Nodup.mem_erase_iff hnd
  have hkmem : ∀ p ∈ procs, ∀ {y}, y ∈ (kids p).erase x ↔ y ≠ x ∧ y ∈ kids p := fun p hp =>
    List.Nodup.mem_erase_iff (h.kin.linked p hp).nodup
  have hparent : ∀ y, (s'.proc y).parent = (s.proc y).parent := hr.field Process.parent fun _ => rfl
  have hfree : ∀ p ∈ procs, x ∉ (kids p).erase x := fun p hp hxp => ((hkmem p hp).mp hxp).1 rfl
  have hunlinked : Kin (unlinkParent x s) procs fun p => (kids p).erase x := by
    unfold unlinkParent
    cases hpx : (s.proc x).parent with
    | none =>
      refine h.kin.congr (fun _ _ => rfl) fun p hp => List.erase_of_not_mem fun hxp => ?_
      have := (h.child p hp x hx).mp hxp
      rw [hpx] at this
      cases this
    | some r =>
      have hr' := h.parent x hx r hpx
      obtain ⟨ys, zs, hk⟩ := List.append_of_mem ((h.child r hr' x hx).mpr hpx)
      refine (h.kin.unlink hr' hk).congr (fun _ _ => rfl) fun p hp => ?_
      by_cases hpr : p = r
      · subst hpr
        rw [update_self, hk]
        exact erase_split (hk ▸ (h.kin.linked p hp).nodup)
      · rw [update_of_ne hpr]
        exact List.erase_of_not_mem fun hxp => hpr (h.kin.once p hp r hr' x hxp (by rw [hk]; simp))
  have hkin : Kin s' (procs.erase x) fun p => (kids p).erase x :=
    (hunlinked.drop hnd hfree (by rw [hnone]; rfl)).congr (fun y _ => hr.kin y) fun _ _ => rfl
  have hlisted : Listed s' (procs.erase x) := by
    obtain ⟨ys, zs, rfl⟩ := List.append_of_mem hx
    rw [erase_split hnd]
    exact h.listed.reaped hr
  refine ⟨hlisted, hkin, fun p hp q hq => ?_, fun q hq p hqp => ?_, hmem.mpr ⟨Ne.symm hinit, h.initMem⟩, ?_, ?_⟩
  · have hp' := (hmem.mp hp).2
    have hq' := hmem.mp hq
    rw [hparent, hkmem p hp', ← h.child p hp' q hq'.2]
    exact and_iff_right hq'.1
  · rw [hparent] at hqp
    have hp := h.parent q (hmem.mp hq).2 p hqp
    refine hmem.mpr ⟨fun he => ?_, hp⟩
    have hqx := (h.child p hp q (hmem.mp hq).2).mpr hqp
    rw [he, hnone] at hqx
    cases hqx
  · rw [hr.field Process.pid fun _ => rfl]
    exact h.initPid
  · rw [hparent]
    exact h.initParent

/-! ### Handing children over -/

/-- The body of the loop of `reparent_children`. -/
def moveChild (dying newParent child : Addr) (s : State) : State :=
  linkChild newParent child ((unlinkChild dying child s).modify child fun c => { c with parent := some newParent })

theorem moveChild_proc (d n c : Addr) (s : State) (y : Addr) : ∃ p : Process, p.noKin = (s.proc y).noKin ∧
    ((moveChild d n c s).proc y).noKin = ({ p with parent := if y = c then some n else p.parent } : Process).noKin := by
  refine ⟨(unlinkChild d c s).proc y, unlinkChild_noKin d c y s, ?_⟩
  unfold moveChild
  rw [linkChild_noKin, proc_modify]
  split_ifs with hy
  · rw [hy]
  · rfl

theorem moveChild_noTree (d n c : Addr) (s : State) (y : Addr) :
    ((moveChild d n c s).proc y).noTree = (s.proc y).noTree := by
  obtain ⟨p, hp, hmoved⟩ := moveChild_proc d n c s y
  unfold Process.noTree
  rw [hmoved, ← hp]
  rfl

theorem moveChild_parent (d n c : Addr) (s : State) (y : Addr) :
    ((moveChild d n c s).proc y).parent = if y = c then some n else (s.proc y).parent := by
  obtain ⟨p, hp, hmoved⟩ := moveChild_proc d n c s y
  rw [field_eq hmoved Process.parent fun _ => rfl, field_eq hp.symm Process.parent fun _ => rfl]

theorem moveChild_tables (d n c : Addr) (s : State) : SameTables s (moveChild d n c s) :=
  ((unlinkChild_tables d c s).trans (SameTables.modify c _ _)).trans (linkChild_tables n c _)

/-- The child lists after the first child of `d` went to `n`. -/
def moveKid (kids : Addr → List Addr) (d n c : Addr) (l : List Addr) : Addr → List Addr :=
  update (update kids d l) n (kids n ++ [c])

theorem Tree.moved (h : Tree s procs kids init) (hd : d ∈ procs) (hn : n ∈ procs)
    (hdn : d ≠ n) (hk : kids d = c :: l) : Tree (moveChild d n c s) procs (moveKid kids d n c l) init := by
  have hcd : c ∈ kids d := by rw [hk]; exact List.mem_cons_self
  have hc := h.kin.sub d hd c hcd
  have hcl : c ∉ l := by
    have := (h.kin.linked d hd).nodup
    rw [hk, List.nodup_cons] at this
    exact this.1
  have hsame : ∀ {β : Type} (g : Process → β), (∀ p : Process, g p.noTree = g p) →
      ∀ y, g ((moveChild d n c s).proc y) = g (s.proc y) := fun g hg y => field_eq (moveChild_noTree d n c s y) g hg
  have hkin : Kin (moveChild d n c s) procs (moveKid kids d n c l) := by
    have hk0 : kids d = [] ++ c :: l := hk
    have h1 := h.kin.unlink hd hk0
    have h2 : Kin ((unlinkChild d c s).modify c fun p => { p with parent := some n }) procs (update kids d l) :=
      h1.congr (fun y _ => proc_modify_same Process.kin c y _ fun _ => rfl) fun _ _ => rfl
    have h3 := h2.link hn hc fun p hp hcp => by
      by_cases hpd : p = d
      · rw [hpd, update_self] at hcp
        exact hcl hcp
      · rw [update_of_ne hpd] at hcp
        exact hpd (h.kin.once p hp d hd c hcp hcd)
    rw [update_of_ne (Ne.symm hdn)] at h3
    exact h3
  refine ⟨h.listed.congr (moveChild_tables d n c s) fun y _ => hsame Process.listing (fun _ => rfl) y, hkin,
    fun p hp q hq => ?_, fun q hq p hqp => ?_, h.initMem, ?_, ?_⟩
  · have hold := h.child p hp q hq
    rw [moveChild_parent, moveKid]
    by_cases hqc : q = c
    · -- The moved child is now in the list of `n` and in no other.
      subst hqc
      rw [if_pos rfl, Option.some_inj]
      by_cases hpn : p = n
      · subst hpn
        simp
      · rw [update_of_ne hpn]
        refine iff_of_false (fun hqp => ?_) fun he => hpn he.symm
        by_cases hpd : p = d
        · rw [hpd, update_self] at hqp
          exact hcl hqp
        · rw [update_of_ne hpd] at hqp
          exact hpd (h.kin.once p hp d hd q hqp hcd)
    · rw [if_neg hqc, ← hold]
      by_cases hpn : p = n
      · subst hpn
        simp [hqc]
      · rw [update_of_ne hpn]
        by_cases hpd : p = d
        · rw [hpd, update_self, hk, List.mem_cons, or_iff_right hqc]
        · rw [update_of_ne hpd]
  · rw [moveChild_parent] at hqp
    split_ifs at hqp with hqc
    · exact Option.some.inj hqp ▸ hn
    · exact h.parent q hq p hqp
  · rw [hsame Process.pid fun _ => rfl]
    exact h.initPid
  · rw [moveChild_parent, if_neg (Ne.symm (h.kid_ne_init hd hcd))]
    exact h.initParent

/-- The children `l` of `d` went to `n`, one by one. -/
structure Handed (d n : Addr) (l : List Addr) (s s' : State) : Prop where
  rest : ∀ y, (s'.proc y).noTree = (s.proc y).noTree
  parent : ∀ y, (s'.proc y).parent = if y ∈ l then some n else (s.proc y).parent

theorem Handed.same (h : Handed d n l s s') (g : Process → β) (hg : ∀ p : Process, g p.noTree = g p) (y : Addr) :
    g (s'.proc y) = g (s.proc y) := field_eq (h.rest y) g hg

section

variable (h : Tree s procs kids init)
include h

theorem Tree.reparentLoop (hd : d ∈ procs) (hn : n ∈ procs) (hdn : d ≠ n) (hk : kids d = l) (hf : l.length < fuel) :
    ∃ s' kids', reparentLoop d n fuel l.head? s = some s' ∧ Tree s' procs kids' init ∧ Handed d n l s s' := by
  induction l generalizing s kids fuel with
  | nil =>
    obtain ⟨fuel, rfl⟩ := Nat.exists_eq_add_one.mpr (Nat.zero_lt_of_lt hf)
    exact ⟨s, kids, rfl, h, fun _ => rfl, fun y => (if_neg List.not_mem_nil).symm⟩
  | cons c l ih =>
    obtain ⟨fuel, rfl⟩ := Nat.exists_eq_add_one.mpr (Nat.zero_lt_of_lt hf)
    have hnext : (s.proc c).childNext = l.head? := by
      have := h.kin.linked d hd
      rw [hk] at this
      exact this.next_eq [] c l rfl
    have hk1 : moveKid kids d n c l d = l := by
      rw [moveKid, update_of_ne hdn, update_self]
    obtain ⟨s', kids', hrun, htree, hh⟩ := ih (h.moved hd hn hdn hk) hk1 (Nat.lt_of_succ_lt_succ hf)
    refine ⟨s', kids', ?_, htree, fun y => (hh.rest y).trans (moveChild_noTree d n c s y), fun y => ?_⟩
    · rw [← hrun, ← hnext]
      rfl
    · rw [hh.parent, moveChild_parent]
      by_cases hyl : y ∈ l
      · rw [if_pos hyl, if_pos (List.mem_cons_of_mem _ hyl)]
      · rw [if_neg hyl]
        by_cases hyc : y = c
        · rw [if_pos hyc, if_pos (hyc ▸ List.mem_cons_self)]
        · rw [if_neg hyc, if_neg fun hy => (List.mem_cons.mp hy).elim hyc hyl]

theorem Tree.pid_inj {y : Addr} (hx : x ∈ procs) (hy : y ∈ procs) (hxy : (s.proc x).pid = (s.proc y).pid) : x = y :=
  List.inj_on_of_nodup_map h.listed.distinct hx hy hxy

theorem Tree.kids_length_le (hp : p ∈ procs) : (kids p).length ≤ maxPids :=
  ((h.kin.linked p hp).nodup.subperm (h.kin.sub p hp)).length_le.trans h.listed.length_le

theorem Tree.reparentChildren (hd : d ∈ procs) (hn : n ∈ procs) (hdn : d ≠ n) :
    ∃ s' kids', reparentChildren d n s = some s' ∧ Tree s' procs kids' init ∧ Handed d n (kids d) s s' := by
  have := h.reparentLoop hd hn hdn rfl (Nat.lt_succ_of_le (h.kids_length_le hd))
  unfold Proc.reparentChildren
  rw [h.kin.headOf d hd]
  exact this

end

/-! ### With exits -/

/-- Only init may have exited and still have children. -/
structure Family (s : State) (procs : List Addr) (kids : Addr → List Addr) (init : Addr) : Prop
    extends Tree s procs kids init where
  nursed : ∀ q ∈ procs, ∀ p, (s.proc q).parent = some p → (s.proc p).state = .zombie → p = init

section

variable (h : Family s procs kids init)
include h

theorem Family.congr (ht : SameTables s s') (hl : ∀ a ∈ procs, (s'.proc a).links = (s.proc a).links)
    (hz : ∀ a ∈ procs, (s'.proc a).state = .zombie → (s.proc a).state = .zombie) : Family s' procs kids init := by
  refine ⟨h.toTree.congr ht hl, fun q hq p hqp hpz => ?_⟩
  have hqp' : (s.proc q).parent = some p := (congrArg (fun l => l.2.2) (hl q hq)).symm.trans hqp
  exact h.nursed q hq p hqp' (hz p (h.parent q hq p hqp') hpz)

theorem Family.modify_links {f : Process → Process} (x : Addr)
    (hl : ∀ p, (f p).links = p.links) (hz : ∀ p, (f p).state = .zombie → p.state = .zombie) :
    Family (s.modify x f) procs kids init := by
  refine h.congr (SameTables.modify x f s) (fun a _ => proc_modify_same Process.links x a s hl) fun a _ hza => ?_
  rw [proc_modify] at hza
  split_ifs at hza with hax
  · rw [hax]
    exact hz _ hza
  · exact hza

theorem Family.childless (hp : p ∈ procs) (hz : (s.proc p).state = .zombie) (hne : p ≠ init) : kids p = [] := by
  refine List.eq_nil_iff_forall_not_mem.mpr fun q hq => hne ?_
  have hq' := h.kin.sub p hp q hq
  exact h.nursed q hq' p ((h.child p hp q hq').mp hq) hz

theorem Family.created (ha : a ∉ procs)
    (hpar : ∀ p, parent = some p → p ∈ procs ∧ (s.proc p).state ≠ .zombie) (hc : Created a pid pml4Phys parent s s') :
    Family s' (a :: procs) (addKid kids a parent) init := by
  have hother : ∀ x ∈ procs, (s'.proc x).parent = (s.proc x).parent ∧ (s'.proc x).state = (s.proc x).state := by
    intro x hx
    have hne := ne_of_mem_of_not_mem hx ha
    exact ⟨hc.field Process.parent (fun _ => rfl) hne, hc.field Process.state (fun _ => rfl) hne⟩
  refine ⟨h.toTree.created ha (fun p hp => (hpar p hp).1) hc, fun q hq p hqp hz => ?_⟩
  rcases List.mem_cons.mp hq with rfl | hq
  · have hparent := congrArg Process.parent hc.record
    have hp := hpar p (hparent.symm.trans hqp)
    exact absurd ((hother p hp.1).2 ▸ hz) hp.2
  · rw [(hother q hq).1] at hqp
    exact h.nursed q hq p hqp ((hother p (h.parent q hq p hqp)).2 ▸ hz)

theorem Family.reaped (hx : x ∈ procs) (hinit : x ≠ init) (hz : (s.proc x).state = .zombie) :
    Family (reapProcess x s) (procs.erase x) (fun p => (kids p).erase x) init := by
  have hr := reapProcess_zombie hz
  refine ⟨h.toTree.reaped hx hinit (h.childless hx hz hinit) hr, fun q hq p hqp hpz => ?_⟩
  have hparent := hr.field Process.parent (fun _ => rfl) q
  have hstate := hr.field Process.state (fun _ => rfl) p
  exact h.nursed q (List.mem_of_mem_erase hq) p (hparent.symm.trans hqp) (hstate.symm.trans hpz)

theorem Family.handed
    (hn : (s.proc n).state = .zombie → n = init) (ht : Tree s' procs kids' init) (hh : Handed d n l s s') :
    Family s' procs kids' init := by
  refine ⟨ht, fun q hq p hqp hz => ?_⟩
  rw [hh.same Process.state fun _ => rfl] at hz
  rw [hh.parent] at hqp
  split_ifs at hqp
  · cases hqp
    exact hn hz
  · exact h.nursed q hq p hqp hz

end

/-- What the loop of `reap_zombies_of_init` does with the children `l`. -/
structure Swept (l : List Addr) (s s' : State) (procs procs' : List Addr) : Prop where
  mem : ∀ q, q ∈ procs' ↔ q ∈ procs ∧ ¬(q ∈ l ∧ (s.proc q).state = .zombie)
  rest : ∀ y, (s'.proc y).noKin.noList = (s.proc y).noKin.noList

theorem Family.reapLoop (h : Family s procs kids init) (hk : kids init = ys ++ l)
    (hf : l.length < fuel) :
    ∃ s' procs' kids', reapLoop fuel l.head? s = some s' ∧ Family s' procs' kids' init ∧ Swept l s s' procs procs' := by
  induction l generalizing s procs kids ys fuel with
  | nil =>
    obtain ⟨fuel, rfl⟩ := Nat.exists_eq_add_one.mpr (Nat.zero_lt_of_lt hf)
    exact ⟨s, procs, kids, rfl, h, by simp, fun _ => rfl⟩
  | cons c l ih =>
    obtain ⟨fuel, rfl⟩ := Nat.exists_eq_add_one.mpr (Nat.zero_lt_of_lt hf)
    have hlink := h.kin.linked init h.initMem
    rw [hk] at hlink
    have hnext : (s.proc c).childNext = l.head? := hlink.next_eq ys c l rfl
    have hci : c ∈ kids init := by rw [hk]; simp
    have hc := h.kin.sub init h.initMem c hci
    have hlen := Nat.lt_of_succ_lt_succ hf
    by_cases hz : (s.proc c).state = .zombie
    · have hne := h.kid_ne_init h.initMem hci
      have hk1 : (kids init).erase c = ys ++ l := by
        rw [hk]
        exact erase_split hlink.nodup
      have hr := reapProcess_zombie hz
      obtain ⟨s', procs', kids', hrun, hfam, hsw⟩ := ih (h.reaped hc hne hz) hk1 hlen
      refine ⟨s', procs', kids', ?_, hfam, fun q => ?_, fun y => (hsw.rest y).trans (hr.rest y)⟩
      · rw [← hrun, ← hnext, List.head?_cons, Proc.reapLoop, if_pos hz]
      · rw [hsw.mem, List.Nodup.mem_erase_iff h.listed.linked.nodup, List.mem_cons]
        change (_ ∧ ¬(_ ∧ ((reapProcess c s).proc q).noKin.noList.state = _)) ↔ _
        rw [hr.rest]
        change (_ ∧ ¬(_ ∧ (s.proc q).state = _)) ↔ _
        by_cases hqc : q = c
        · subst hqc
          simp [hz]
        · simp [hqc]
    · have hk1 : kids init = (ys ++ [c]) ++ l := by
        rw [hk, List.append_assoc]
        rfl
      obtain ⟨s', procs', kids', hrun, hfam, hsw⟩ := ih h hk1 hlen
      refine ⟨s', procs', kids', ?_, hfam, fun q => ?_, hsw.rest⟩
      · rw [← hrun, ← hnext, List.head?_cons, Proc.reapLoop, if_neg hz]
      · rw [hsw.mem, List.mem_cons]
        by_cases hqc : q = c
        · subst hqc
          simp [hz]
        · simp [hqc]

theorem Tree.findInit (h : Tree s procs kids init) : findInitProcess s = some (some init) := by
  have := h.listed.find_self h.initMem
  rw [h.initPid] at this
  exact this

theorem Family.reapZombiesOfInit (h : Family s procs kids init) :
    ∃ s' procs' kids', reapZombiesOfInit s = some s' ∧ Family s' procs' kids' init ∧
      Swept (kids init) s s' procs procs' := by
  have hk : kids init = [] ++ kids init := rfl
  have := h.reapLoop hk (Nat.lt_succ_of_le (h.kids_length_le h.initMem))
  unfold Proc.reapZombiesOfInit
  rw [h.findInit, ← h.kin.headOf init h.initMem] at *
  exact this

/-! ### System calls -/

/-- The fields that `sys_exit` has no business with. -/
def Process.noExit (p : Process) : Process :=
  { p.noTree with state := .dead, exitStatus := 0, waitTask := none }

/-- `sys_exit` of `d` up to the reparenting, where it hands the children `l` to init. -/
structure Died (d : Addr) (status : ℤ) (init : Addr) (l : List Addr) (s s' : State) : Prop where
  rest : ∀ y, (s'.proc y).noExit = (s.proc y).noExit
  parent : ∀ y, (s'.proc y).parent = if y ∈ l then some init else (s.proc y).parent
  state : ∀ y, (s'.proc y).state = if y = d then .zombie else (s.proc y).state
  exitStatus : ∀ y, (s'.proc y).exitStatus = if y = d then status else (s.proc y).exitStatus

/-- The children that `sys_exit` hands to init. -/
def orphans (kids : Addr → List Addr) (init d : Addr) : List Addr := if d = init then [] else kids d

theorem markZombie_died (d : Addr) (status : ℤ) (init : Addr) (s : State) :
    Died d status init [] s (markZombie d status s) := by
  refine ⟨fun y => proc_modify_same Process.noExit d y s fun _ => rfl, fun y => ?_, fun y => ?_, fun y => ?_⟩
  · rw [if_neg List.not_mem_nil]
    exact proc_modify_same Process.parent d y s fun _ => rfl
  · rw [markZombie, proc_modify]
    split_ifs <;> rfl
  · rw [markZombie, proc_modify]
    split_ifs <;> rfl

theorem Died.handed {init : Addr} {status : ℤ} {s₁ s₂ : State} (h : Died d status init [] s s₁)
    (hh : Handed d init l s₁ s₂) : Died d status init l s s₂ := by
  refine ⟨fun y => ?_, fun y => ?_, fun y => ?_, fun y => ?_⟩
  · rw [hh.same Process.noExit fun _ => rfl, h.rest]
  · rw [hh.parent, h.parent, if_neg List.not_mem_nil]
  · rw [hh.same Process.state fun _ => rfl, h.state]
  · rw [hh.same Process.exitStatus fun _ => rfl, h.exitStatus]

/-- The reparenting part of `sys_exit`. -/
def buryProcess (proc : Addr) (status : ℤ) (s : State) : Option State :=
  match findInitProcess (markZombie proc status s) with
  | none => none
  | some none => some (markZombie proc status s)
  | some (some init) =>
    if init ≠ proc then reparentChildren proc init (markZombie proc status s) else some (markZombie proc status s)

theorem Family.buryProcess (h : Family s procs kids init) (hd : d ∈ procs) (status : ℤ) :
    ∃ s' kids', buryProcess d status s = some s' ∧ Family s' procs kids' init ∧
      Died d status init (orphans kids init d) s s' ∧ ∀ y, (s'.proc y).waitTask = (s.proc y).waitTask := by
  have hmark := markZombie_died d status init s
  have h1 : Tree (markZombie d status s) procs kids init :=
    h.toTree.modify d _ fun _ => rfl
  have hwait : ∀ y, ((markZombie d status s).proc y).waitTask = (s.proc y).waitTask := fun y =>
    proc_modify_same Process.waitTask d y s fun _ => rfl
  obtain ⟨s', kids', hrun, htree, hh⟩ : ∃ s' kids', Proc.buryProcess d status s = some s' ∧ Tree s' procs kids' init ∧
      Handed d init (orphans kids init d) (markZombie d status s) s' := by
    unfold Proc.buryProcess orphans
    rw [h1.findInit]
    by_cases hdi : d = init
    · simp only [if_neg (not_not.mpr hdi.symm), if_pos hdi]
      exact ⟨_, kids, rfl, h1, fun _ => rfl, fun y => (if_neg List.not_mem_nil).symm⟩
    · simp only [if_pos (Ne.symm hdi), if_neg hdi]
      exact h1.reparentChildren hd h1.initMem hdi
  have hdied := hmark.handed hh
  refine ⟨s', kids', hrun, ⟨htree, fun q hq p hqp hz => ?_⟩, hdied,
    fun y => (hh.same Process.waitTask (fun _ => rfl) y).trans (hwait y)⟩
  rw [hdied.parent] at hqp
  rw [hdied.state] at hz
  split_ifs at hqp with hql
  · exact (Option.some.inj hqp).symm
  · split_ifs at hz with hpd
    · -- A child of `d` that was not handed over: `d` is init.
      by_contra hpi
      rw [orphans, if_neg (hpd ▸ hpi)] at hql
      exact hql ((h.child d hd q hq).mpr (hpd ▸ hqp))
    · exact h.nursed q hq p hqp hz

/-- The last part of `sys_exit`. -/
def wakeParent (proc : Addr) (s : State) : Option Addr × State :=
  match (s.proc proc).parent with
  | none => (none, s)
  | some p =>
    match (s.proc p).waitTask with
    | none => (none, s)
    | some task => (some task, s.modify p fun p => { p with waitTask := none })

theorem exitProcess_eq (d : Addr) (status : ℤ) (s : State) :
    exitProcess d status s = (buryProcess d status s).map (wakeParent d) := rfl

theorem wakeParent_woken (d : Addr) (s : State) :
    (wakeParent d s).1 = (s.proc d).parent.bind fun p => (s.proc p).waitTask := by
  unfold wakeParent
  cases (s.proc d).parent with
  | none => rfl
  | some p =>
    rw [Option.bind_some]
    dsimp only
    cases (s.proc p).waitTask <;> rfl

theorem wakeParent_proc (d : Addr) (s : State) (y : Addr) : (wakeParent d s).2.proc y =
    if (s.proc d).parent = some y then { s.proc y with waitTask := none } else s.proc y := by
  unfold wakeParent
  cases (s.proc d).parent with
  | none => rfl
  | some p =>
    dsimp only
    cases hw : (s.proc p).waitTask with
    | none =>
      dsimp only
      split_ifs with hp
      · rw [← Option.some.inj hp, ← hw]
      · rfl
    | some task =>
      rw [proc_modify]
      by_cases hy : y = p
      · subst hy
        rw [if_pos rfl, if_pos rfl]
      · rw [if_neg hy, if_neg fun hp => hy (Option.some.inj hp).symm]

theorem wakeParent_same (d : Addr) (s : State) (g : Process → β)
    (hg : ∀ p : Process, g { p with waitTask := none } = g p) (y : Addr) :
    g ((wakeParent d s).2.proc y) = g (s.proc y) := by
  rw [wakeParent_proc]
  split_ifs
  · exact hg _
  · rfl

theorem Family.waits (h : Family s procs kids init) (p : Addr) (task : Option Addr) :
    Family (s.modify p fun r => { r with waitTask := task }) procs kids init :=
  h.modify_links p (fun _ => rfl) fun _ hz => hz

theorem Family.wakeParent (h : Family s procs kids init) (d : Addr) : Family (wakeParent d s).2 procs kids init := by
  unfold Proc.wakeParent
  split
  · exact h
  · split
    · exact h
    · exact h.waits _ none

theorem findZombie_eq (target : ℤ) (h : Linked (childNext s) (childPrev s) (ys ++ l))
    (hpid : ∀ x ∈ l, ∀ y ∈ l, (s.proc x).pid = (s.proc y).pid → x = y) (hf : l.length < fuel) :
    findZombie s target fuel l.head? =
      some (l.find? fun q => childMatches s target q && (s.proc q).state == .zombie) := by
  induction l generalizing ys fuel with
  | nil =>
    obtain ⟨fuel, rfl⟩ := Nat.exists_eq_add_one.mpr (Nat.zero_lt_of_lt hf)
    rfl
  | cons c l ih =>
    obtain ⟨fuel, rfl⟩ := Nat.exists_eq_add_one.mpr (Nat.zero_lt_of_lt hf)
    have hnext : (s.proc c).childNext = l.head? := h.next_eq ys c l rfl
    have hshift : ys ++ c :: l = (ys ++ [c]) ++ l := by simp
    have hrest := ih (hshift ▸ h)
      (fun x hx y hy => hpid x (List.mem_cons_of_mem _ hx) y (List.mem_cons_of_mem _ hy)) (Nat.lt_of_succ_lt_succ hf)
    rw [List.head?_cons, findZombie, hnext, hrest]
    by_cases hm : childMatches s target c = true
    · rw [if_pos hm]
      by_cases hz : (s.proc c).state = .zombie
      · rw [if_pos hz, List.find?_cons_of_pos (by simp [hm, hz])]
      · rw [if_neg hz, List.find?_cons_of_neg (by simp [hz])]
        split_ifs with ht
        · -- A positive target names one pid, so no other child matches.
          have hpidOf : ∀ q, childMatches s target q = true → ((s.proc q).pid : ℤ) = target := fun q hq => by
            simpa [childMatches, not_le.mpr ht] using hq
          refine congrArg some (List.find?_eq_none.mpr fun q hq hqm => hz ?_).symm
          rw [Bool.and_eq_true, beq_iff_eq] at hqm
          have hqc : q = c := hpid q (List.mem_cons_of_mem _ hq) c List.mem_cons_self (by
            have := hpidOf q hqm.1
            have := hpidOf c hm
            omega)
          exact hqc ▸ hqm.2
        · rfl
    · rw [if_neg hm, List.find?_cons_of_neg (by simp [hm])]

theorem Tree.findZombie (h : Tree s procs kids init) (hp : p ∈ procs) (target : ℤ) :
    ∃ r, findZombie s target (maxPids + 1) (s.proc p).childHead = some r ∧
      (∀ z, r = some z → z ∈ kids p ∧ (s.proc z).state = .zombie ∧ childMatches s target z = true) ∧
      (r = none → ∀ q ∈ kids p, childMatches s target q = true → (s.proc q).state ≠ .zombie) := by
  have hlink : Linked (childNext s) (childPrev s) ([] ++ kids p) := h.kin.linked p hp
  rw [h.kin.headOf p hp]
  refine ⟨_, findZombie_eq target hlink (fun x hx y hy => h.pid_inj (h.kin.sub p hp x hx) (h.kin.sub p hp y hy))
    (Nat.lt_succ_of_le (h.kids_length_le hp)), fun z hz => ?_, fun hn q hq hm hz => ?_⟩
  · have := List.find?_some hz
    rw [Bool.and_eq_true, beq_iff_eq] at this
    exact ⟨List.mem_of_find?_eq_some hz, this.2, this.1⟩
  · exact List.find?_eq_none.mp hn q hq (by simp [hm, hz])

/-- The outcomes of a round of `sys_waitpid` by `p` with the children `l`. -/
inductive Waited (p : Addr) (target : ℤ) (noHang : Bool) (l : List Addr) (s : State) : WaitResult → State → Prop
  | reaped {z : Addr} (hz : z ∈ l) (hstate : (s.proc z).state = .zombie) (hm : childMatches s target z = true) :
      Waited p target noHang l s (.reaped (s.proc z).pid (s.proc z).exitStatus) (reapProcess z s)
  | noChild (hno : ∀ q ∈ l, childMatches s target q = false) : Waited p target noHang l s .noChild s
  | noHang (hn : noHang = true) : Waited p target noHang l s .noHang s
  | block {c : Addr} (hn : noHang = false) (hc : c ∈ l) (hm : childMatches s target c = true)
      (hno : ∀ q ∈ l, childMatches s target q = true → (s.proc q).state ≠ .zombie) :
      Waited p target noHang l s .block (s.modify p fun r => { r with waitTask := some p })

section

variable (h : Family s procs kids init)
include h

theorem Family.waitRound (hp : p ∈ procs) (target : ℤ) (noHang : Bool) :
    ∃ r s', waitRound p target noHang s = some (r, s') ∧ Waited p target noHang (kids p) s r s' := by
  obtain ⟨r, hr, hsome, hnone⟩ := h.findZombie hp target
  have hfind := (h.kin.linked p hp).find_eq (childMatches s target) (Nat.lt_succ_of_le (h.kids_length_le hp))
  rw [← h.kin.headOf p hp] at hfind
  unfold Proc.waitRound
  dsimp only
  rw [hr]
  cases r with
  | some z =>
    obtain ⟨hz, hstate, hm⟩ := hsome z rfl
    exact ⟨_, _, rfl, .reaped hz hstate hm⟩
  | none =>
    simp only
    rw [show DList.find (fun a => (s.proc a).childNext) (childMatches s target) (maxPids + 1) (s.proc p).childHead = _ from hfind]
    cases hf : (kids p).find? (childMatches s target) with
    | none =>
      refine ⟨_, _, rfl, .noChild fun q hq => ?_⟩
      simpa using List.find?_eq_none.mp hf q hq
    | some c =>
      have hc := List.mem_of_find?_eq_some hf
      have hm := List.find?_some hf
      cases noHang with
      | true => exact ⟨_, _, rfl, .noHang rfl⟩
      | false => exact ⟨_, _, rfl, .block rfl hc hm (hnone rfl)⟩

/-! ### Runs -/

theorem Family.failed {b : Addr} (hb : s.live b = false) : Family ((s.alloc b).free b) procs kids init := by
  have hproc := h.listed.failed_proc hb
  exact h.congr (SameTables.failed hb) (fun x hx => by rw [hproc x hx]) fun x hx hz => by rwa [hproc x hx] at hz

theorem Family.create {mem : Option Addr} (pml4Phys : ℕ) (hfresh : ∀ a, mem = some a → s.live a = false)
    (hpar : ∀ p, parent = some p → s.live p = true ∧ (s.proc p).state ≠ .zombie) :
    ∃ procs' kids', Family (processCreate mem pml4Phys parent s).2 procs' kids' init := by
  rcases hs : processCreate mem pml4Phys parent s with ⟨r, s'⟩
  cases r with
  | none =>
    rcases processCreate_fail hs with ⟨-, rfl⟩ | ⟨b, hb, rfl, -⟩
    · exact ⟨procs, kids, h⟩
    · exact ⟨procs, kids, h.failed (hfresh b hb)⟩
  | some a =>
    obtain ⟨hmem, pid, hc⟩ := processCreate_ok hs
    have ha : a ∉ procs := fun ha => by
      have := hfresh a hmem
      rw [(h.listed.live a).mp ha] at this
      cases this
    exact ⟨_, _, h.created ha (fun p hp => ⟨(h.listed.live p).mpr (hpar p hp).1, (hpar p hp).2⟩) hc⟩

theorem Family.step {c : Call} (hc : Allowed s c) :
    ∃ s' procs' kids', exec c s = some s' ∧ Family s' procs' kids' init := by
  cases c with
  | create mem pml4Phys parent =>
    obtain ⟨procs', kids', h'⟩ := h.create pml4Phys hc.1 hc.2
    exact ⟨_, procs', kids', rfl, h'⟩
  | exit proc status =>
    obtain ⟨s1, kids1, hs1, h1, -⟩ := h.buryProcess ((h.listed.live proc).mpr hc) status
    refine ⟨_, procs, kids1, ?_, h1.wakeParent proc⟩
    dsimp only [exec]
    rw [exitProcess_eq, hs1]
    rfl
  | reparent dying newParent =>
    obtain ⟨hd, hn, hdn, hstate⟩ := hc
    have hnm := (h.listed.live newParent).mpr hn
    obtain ⟨s', kids', hs', ht, hh⟩ := h.toTree.reparentChildren ((h.listed.live dying).mpr hd) hnm hdn
    refine ⟨s', procs, kids', hs', h.handed (fun hz => ?_) ht hh⟩
    exact List.inj_on_of_nodup_map h.listed.distinct hnm h.initMem
      ((hstate.resolve_left (not_not.mpr hz)).trans h.initPid.symm)
  | waitpid proc target noHang =>
    have hp := (h.listed.live proc).mpr hc
    obtain ⟨r, s', hs', hw⟩ := h.waitRound hp target noHang
    dsimp only [exec]
    rw [hs']
    cases hw with
    | reaped hz hstate hm => exact ⟨_, _, _, rfl, h.reaped (h.kin.sub proc hp _ hz) (h.kid_ne_init hp hz) hstate⟩
    | noChild hno => exact ⟨_, _, _, rfl, h⟩
    | noHang hn => exact ⟨_, _, _, rfl, h⟩
    | block hn hcm hm hno => exact ⟨_, _, _, rfl, h.waits proc _⟩
  | reapInit =>
    obtain ⟨s', procs', kids', hs', h', -⟩ := h.reapZombiesOfInit
    exact ⟨s', procs', kids', hs', h'⟩

end

/-- The boot state: init is the first process. -/
def boot (a : Addr) (pml4Phys : ℕ) (s : State) : State := (processCreate (some a) pml4Phys none (initProcessSystem s)).2

theorem pidAlloc_first (a : Addr) (s : State) : pidAlloc ((initProcessSystem s).alloc a) =
    (some 0, { (initProcessSystem s).alloc a with
      pidBitmap := setBit (fun _ => 0) 0, nextPidHint := 1 }) := by
  let s' := (initProcessSystem s).alloc a
  have hfirst : findUp (fun offset => !pidUsed s' ((s'.nextPidHint + offset) % maxPids)) maxPids 0 = some 0 :=
    if_pos (by simp [s', pidUsed, bitAt, State.alloc, initProcessSystem])
  unfold pidAlloc
  rw [if_neg (by simp [State.alloc, initProcessSystem]), hfirst]
  rfl

theorem processCreate_boot (a : Addr) (pml4Phys : ℕ) (s : State) :
    processCreate (some a) pml4Phys none (initProcessSystem s) = (some a, boot a pml4Phys s) := by
  unfold boot processCreate
  simp only [pidAlloc_first]

theorem boot_created (a : Addr) (pml4Phys : ℕ) (s : State) :
    Created a 0 pml4Phys none (initProcessSystem s) (boot a pml4Phys s) := by
  obtain ⟨-, pid, hc⟩ := processCreate_ok (processCreate_boot a pml4Phys s)
  have hpid : ((boot a pml4Phys s).proc a).pid = 0 := by
    unfold boot processCreate
    simp only [pidAlloc_first]
    change ((State.modify a _ _).proc a).pid = 0
    rw [proc_modify_self]
  obtain rfl : pid = 0 := (congrArg Process.pid hc.record).symm.trans hpid
  exact hc

theorem family_boot (a : Addr) (pml4Phys : ℕ) (h : ∀ x, s.live x = false) :
    Family (boot a pml4Phys s) [a] (fun _ => []) a := by
  have hc := boot_created a pml4Phys s
  have hpid : ((boot a pml4Phys s).proc a).pid = 0 := by
    exact congrArg Process.pid hc.record
  have hparent : ((boot a pml4Phys s).proc a).parent = none := by
    exact congrArg Process.parent hc.record
  have hnil : Kin (initProcessSystem s) [] fun _ => [] :=
    ⟨fun _ hp => (nomatch hp), fun _ hp => (nomatch hp), fun _ hp => (nomatch hp), fun _ hp => (nomatch hp),
      fun _ hp => (nomatch hp), fun _ hq => (nomatch hq)⟩
  have hkin : Kin (boot a pml4Phys s) [a] fun _ => [] :=
    (hnil.insert List.not_mem_nil).congr (fun x _ => hc.kin x) fun p hp => by
      rw [List.mem_singleton.mp hp, update_self]
  refine ⟨⟨(Listed.start h).created List.not_mem_nil hc, hkin, fun p hp q hq => ?_, fun q hq p hqp => ?_,
    List.mem_cons_self, hpid, hparent⟩, fun q hq p hqp => ?_⟩
  all_goals obtain rfl := List.mem_singleton.mp hq
  · rw [hparent]
    simp
  · rw [hparent] at hqp
    cases hqp
  · rw [hparent] at hqp
    cases hqp

theorem Family.run {s₀ : State} (h₀ : ∀ x, s₀.live x = false)
    (hrun : Run (boot a pml4Phys s₀) s) : ∃ procs kids, Family s procs kids a := by
  induction hrun with
  | start => exact ⟨[a], fun _ => [], family_boot a pml4Phys h₀⟩
  | step _ hc hs ih =>
    obtain ⟨procs, kids, h⟩ := ih
    obtain ⟨s', procs', kids', hs', h'⟩ := h.step hc
    obtain rfl := Option.some.inj (hs.symm.trans hs')
    exact ⟨procs', kids', h'⟩

/-- The pointers of a process to other processes. -/
def Process.pointers (p : Process) : List (Option Addr) :=
  [p.parent, p.next, p.prev, p.childHead, p.childTail, p.childNext, p.childPrev]

/-- `procs` are the processes on `process_list` and `kids p` those on the child list of `p`. -/
structure WellFormed (s : State) (procs : List Addr) (kids : Addr → List Addr) : Prop where
  list : Linked (fun a => (s.proc a).next) (fun a => (s.proc a).prev) procs
  head : s.processList = procs.head?
  children : ∀ p ∈ procs, Linked (childNext s) (childPrev s) (kids p)
  childHead : ∀ p ∈ procs, (s.proc p).childHead = (kids p).head?
  childTail : ∀ p ∈ procs, (s.proc p).childTail = (kids p).getLast?
  child : ∀ p ∈ procs, ∀ q, q ∈ kids p ↔ q ∈ procs ∧ (s.proc q).parent = some p
  live : ∀ a, a ∈ procs ↔ s.live a = true
  pointers : ∀ p ∈ procs, ∀ a, some a ∈ (s.proc p).pointers → s.live a = true

theorem Tree.kin_mem (h : Tree s procs kids init) (hp : p ∈ procs)
    (hq : childNext s p = some q ∨ childPrev s p = some q) : q ∈ procs := by
  by_cases hfree : ∀ r ∈ procs, p ∉ kids r
  · have := h.kin.loose p hp hfree
    rw [this.1, this.2] at hq
    simp at hq
  · push Not at hfree
    obtain ⟨r, hr, hpr⟩ := hfree
    have hl := h.kin.linked r hr
    exact h.kin.sub r hr q (hq.elim (hl.next_mem hpr) (hl.prev_mem hpr))

theorem Tree.wellFormed (h : Tree s procs kids init) : WellFormed s procs kids := by
  refine ⟨h.listed.linked, h.listed.head, h.kin.linked, h.kin.headOf, h.kin.tailOf, fun p hp q => ?_, h.listed.live,
    fun p hp a ha => (h.listed.live a).mp ?_⟩
  · constructor
    · intro hq
      have hq' := h.kin.sub p hp q hq
      exact ⟨hq', (h.child p hp q hq').mp hq⟩
    · exact fun hq => (h.child p hp q hq.1).mpr hq.2
  · simp only [Process.pointers, List.mem_cons, List.not_mem_nil, or_false] at ha
    rcases ha with ha | ha | ha | ha | ha | ha | ha
    · exact h.parent p hp a ha.symm
    · exact h.listed.linked.next_mem hp ha.symm
    · exact h.listed.linked.prev_mem hp ha.symm
    · exact h.kin.sub p hp a (List.mem_of_mem_head? ((h.kin.headOf p hp).symm.trans ha.symm))
    · exact h.kin.sub p hp a (List.mem_of_mem_getLast? ((h.kin.tailOf p hp).symm.trans ha.symm))
    · exact h.kin_mem hp (Or.inl ha.symm)
    · exact h.kin_mem hp (Or.inr ha.symm)

/-- Every call returns, and leaves the lists and the parent pointers in order. -/
theorem process_tree {a : Addr} {pml4Phys : ℕ} {s₀ : State} (h₀ : ∀ x, s₀.live x = false)
    (hrun : Run (boot a pml4Phys s₀) s) :
    (∃ procs kids, WellFormed s procs kids) ∧ ∀ c, Allowed s c → (exec c s).isSome := by
  obtain ⟨procs, kids, h⟩ := Family.run h₀ hrun
  refine ⟨⟨procs, kids, h.wellFormed⟩, fun c hc => ?_⟩
  obtain ⟨s', -, -, hs', -⟩ := h.step hc
  rw [hs']
  rfl

theorem process_tree_child :
    (∃ procs kids, WellFormed (processCreate (some 2) 0 (some 1) (boot 1 0 noProcesses)).2 procs kids) ∧
      ((processCreate (some 2) 0 (some 1) (boot 1 0 noProcesses)).2.proc 2).parent = some 1 := by
  have hc : Allowed (boot 1 0 noProcesses) (.create (some 2) 0 (some 1)) := by
    refine ⟨fun a ha => ?_, fun p hp => ?_⟩
    · rw [← Option.some.inj ha]
      rfl
    · rw [← Option.some.inj hp]
      exact ⟨rfl, by decide⟩
  exact ⟨(process_tree (fun _ => rfl) (Run.step Run.start hc rfl)).1, rfl⟩

end Tori.Proc
