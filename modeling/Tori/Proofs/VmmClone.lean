import Tori.Sanity.Vmm
import Tori.Spec.CloneFail

/-! `clone_table` on a subtree: the copy has the shape of the source, its tables are fresh
frames with one reference each, every mapped frame gains one reference per leaf, and the
writable leaves of the source turn copy-on-write. -/

namespace Tori.Vmm

open Loop Pmm Radix Function

/-- A source leaf after `clone_table`. -/
def markLeaf (e : Entry) : Entry := if has e ptePresent then markCow e else e

/-- The copied leaf. -/
def copyLeaf (e : Entry) : Entry := if has e ptePresent then markCow e else 0

variable {e : Entry} {s : State} {f' g a f d K dst : ℕ} {w₀ w w' : World} {i : Fin 512}

theorem refs_absent {q : ℕ} (h : has e ptePresent = false) : refs q e = 0 := by
  simp [refs, h]

theorem refs_present (h : has e ptePresent = true) (q : ℕ) :
    refs q e = if addrOf e / 4096 = q then 1 else 0 := by
  have := addrOf_mod e
  unfold refs
  by_cases hq : addrOf e / 4096 = q
  · rw [if_pos hq, if_pos ⟨h, by omega⟩]
  · rw [if_neg hq, if_neg (fun h => hq (by omega))]

theorem refs_markCow (q : ℕ) (e : Entry) : refs q (markCow e) = refs q e := by
  obtain ⟨hP, -, -, hA, -⟩ := markCow_bits e
  rw [refs, hP, hA, refs]

theorem refs_markLeaf (q : ℕ) (e : Entry) : refs q (markLeaf e) = refs q e := by
  unfold markLeaf
  split_ifs
  · exact refs_markCow q e
  · rfl

theorem refs_copyLeaf (q : ℕ) (e : Entry) : refs q (copyLeaf e) = refs q e := by
  unfold copyLeaf
  split_ifs with hP
  · exact refs_markCow q e
  · rw [refs_absent absent_zero, refs_absent (Bool.eq_false_iff.2 hP)]

theorem retain_iter_used (n : ℕ) (p : Bool × ℕ) : (retainState^[n] p).1 = p.1 := by
  induction n generalizing p with
  | zero => rfl
  | succ n ih =>
    rw [iterate_succ_apply, ih]
    obtain ⟨u, r⟩ := p
    cases u <;> rfl

theorem pageState_retain_refs (hP : has e ptePresent = true)
    (hlt : addrOf e / 4096 < maxManagedPages) (q : ℕ) :
    pageState (retainPage (addrOf e) s) q = retainState^[refs q e] (pageState s q) := by
  have h := pageState_retainPage s (addrOf e / 4096) q hlt
  rw [show addrOf e / 4096 * pageSize = addrOf e from addrOf_div_mul e] at h
  rw [h, refs_present hP]
  by_cases hq : q = addrOf e / 4096
  · rw [if_pos hq, if_pos hq.symm, ← hq]; rfl
  · rw [if_neg hq, if_neg (Ne.symm hq)]; rfl

/-- Every frame the tree refers to is managed and in use. -/
def InUse (s : State) (t : PTree) : Prop :=
  ∀ q, 0 < own q t + cnt (refs q) t → q < maxManagedPages ∧ isPageUsed s q = true

/-- `dst` in world `w` is a clone of the tree `src` of world `w₀`. -/
structure Cloned (w₀ w : World) (src dst : PTree) : Prop where
  copy : Copy copyLeaf src dst
  ok : Ok okEntry dst
  fresh : ∀ g, 0 < own g dst → g < maxManagedPages ∧ isPageUsed w₀.pmm g = false
  uniq : ∀ g, own g dst ≤ 1
  pmm : ∀ q, pageState w.pmm q =
    if 0 < own q dst then (true, 1) else retainState^[cnt (refs q) src] (pageState w₀.pmm q)
  mem : ∀ x, own (x / 4096) src = 0 → own (x / 4096) dst = 0 → w.mem x = w₀.mem x
  kernel : w.kernelPml4Phys = w₀.kernelPml4Phys

namespace Cloned

variable {w₀ w w' : World} {src dst : PTree}

theorem nil (w : World) : Cloned w w .nil .nil :=
  ⟨trivial, trivial, fun g hg => absurd hg (by simp), fun g => by simp, fun q => rfl, fun _ _ _ => rfl, rfl⟩

variable {q : ℕ}

section

variable (h : Cloned w₀ w src dst)
include h

theorem used (hq : isPageUsed w₀.pmm q = true ∨ 0 < own q dst) : isPageUsed w.pmm q = true := by
  have := congrArg Prod.fst (h.pmm q)
  change isPageUsed w.pmm q = _ at this
  rw [this]
  split_ifs with h0
  · rfl
  · rw [retain_iter_used]
    exact hq.resolve_right h0

theorem inUse {t : PTree} (ht : InUse w₀.pmm t) : InUse w.pmm t :=
  fun q hq => ⟨(ht q hq).1, h.used (.inl (ht q hq).2)⟩

theorem not_own_of_used (hq : isPageUsed w₀.pmm q = true) : own q dst = 0 := by
  by_contra hne
  have := (h.fresh q (by omega)).2
  rw [hq] at this
  exact Bool.noConfusion this

theorem rd_same {g : ℕ} (hu : isPageUsed w₀.pmm g = true) (hg : own g src = 0) : rd w.mem g = rd w₀.mem g :=
  rd_congr fun x hx => h.mem x (by rw [hx]; exact hg) (by rw [hx]; exact h.not_own_of_used hu)

end

end Cloned

/-- A world in which only the fresh frame `f'` differs. -/
structure Allocated (w₀ w : World) (f' : ℕ) : Prop where
  lt : f' < maxManagedPages
  free : isPageUsed w₀.pmm f' = false
  pmm : ∀ q, pageState w.pmm q = if q = f' then (true, 1) else pageState w₀.pmm q
  mem : ∀ x, x / 4096 ≠ f' → w.mem x = w₀.mem x
  kernel : w.kernelPml4Phys = w₀.kernelPml4Phys

section

variable (h : Allocated w₀ w f')
include h

theorem Allocated.kept (hg : isPageUsed w₀.pmm g = true) : isPageUsed w.pmm g = true := by
  have hstate := congrArg Prod.fst (h.pmm g)
  split_ifs at hstate
  · exact hstate
  · exact hstate.trans hg

theorem Allocated.ne_of_used (hg : isPageUsed w₀.pmm g = true) : g ≠ f' := by
  rintro rfl
  exact Bool.false_ne_true (h.free.symm.trans hg)

theorem Allocated.used : isPageUsed w.pmm f' = true :=
  congrArg Prod.fst ((h.pmm f').trans (if_pos rfl))

theorem Allocated.rd (hg : g ≠ f') : rd w.mem g = rd w₀.mem g :=
  rd_congr fun x hx => h.mem x (hx.symm ▸ hg)

end

theorem allocPage_spec {s' : State} (h : allocPage s = (a, s'))
    (hok : a ≠ invalidPhysicalAddress) :
    ∃ f, a = f * 4096 ∧ f < maxManagedPages ∧ isPageUsed s f = false ∧
      ∀ q, pageState s' q = if q = f then (true, 1) else pageState s q := by
  obtain ⟨f, rfl, -, hle, hfree, hst, -⟩ := allocPages_spec h hok
  refine ⟨f, rfl, by omega, hfree f le_rfl (by omega), fun q => ?_⟩
  rw [hst q]
  by_cases hq : q = f
  · rw [if_pos hq, if_pos (by omega)]
  · rw [if_neg hq, if_neg (by omega)]

/-! ### Page tables of leaf entries -/

/-- After the first `k` slots of a leaf table. -/
structure LeafLoop (w₀ : World) (f f' k : ℕ) (w : World) : Prop where
  copied : ∀ i : Fin 512, i.val < k → rd w.mem f' i = copyLeaf (rd w₀.mem f i)
  marked : ∀ i : Fin 512, rd w.mem f i = if i.val < k then markLeaf (rd w₀.mem f i) else rd w₀.mem f i
  pmm : ∀ q, pageState w.pmm q = if q = f' then (true, 1) else
    retainState^[∑ i : Fin 512, if i.val < k then refs q (rd w₀.mem f i) else 0] (pageState w₀.pmm q)
  mem : ∀ x, x / 4096 ≠ f → x / 4096 ≠ f' → w.mem x = w₀.mem x
  kernel : w.kernelPml4Phys = w₀.kernelPml4Phys

theorem LeafLoop.start (h : Allocated w₀ w f') (hne : f ≠ f') :
    LeafLoop w₀ f f' 0 w := by
  refine ⟨fun i hi => absurd hi (by omega), fun i => ?_, fun q => ?_, fun x _ hx => h.mem x hx, h.kernel⟩
  · rw [if_neg (by omega), rd_congr fun x hx => h.mem x (by omega)]
  · rw [h.pmm q]
    simp

theorem LeafLoop.step {w₀ w : World} {f f' k : ℕ} (hk : k < 512) (hne : f ≠ f')
    (hlt : ∀ q, 0 < refs q (rd w₀.mem f ⟨k, hk⟩) → q < maxManagedPages ∧ q ≠ f')
    (h : LeafLoop w₀ f f' k w) : LeafLoop w₀ f f' (k + 1) (cloneLeaf (f * 4096) (f' * 4096) k w) := by
  have he : entry w.mem (f * 4096) k = rd w₀.mem f ⟨k, hk⟩ := by
    have := h.marked ⟨k, hk⟩
    rwa [if_neg (by simp)] at this
  set e := rd w₀.mem f ⟨k, hk⟩ with hedef
  -- the two cases write `copyLeaf e` to the copy and `markLeaf e` back to the source
  have key : ∃ m, (∀ x, x / 4096 ≠ f → m x = w.mem x) ∧
      rd m f = update (rd w.mem f) ⟨k, hk⟩ (markLeaf e) ∧
      cloneLeaf (f * 4096) (f' * 4096) k w =
        { w with
          pmm := if has e ptePresent then retainPage (addrOf e) w.pmm else w.pmm
          mem := setEntry m (f' * 4096) k (copyLeaf e) } := by
    unfold cloneLeaf
    simp only [he]
    cases hP : has e ptePresent with
    | false =>
      refine ⟨w.mem, fun _ _ => rfl, ?_, by simp [copyLeaf, hP]⟩
      rw [markLeaf, hP, ← he]
      exact (update_eq_self _ _).symm
    | true =>
      have hmark : markLeaf e = markCow e := by simp [markLeaf, hP]
      have hcopy : copyLeaf e = markCow e := by simp [copyLeaf, hP]
      cases hW : has e pteWritable with
      | false =>
        have hid : markCow e = e := by simp [markCow, hW]
        refine ⟨w.mem, fun _ _ => rfl, ?_, by simp [hcopy, hid, he]⟩
        rw [hmark, hid, ← he]
        exact (update_eq_self _ _).symm
      | true =>
        have hid : markCow e = (e &&& ~~~pteWritable) ||| pteCow := by simp [markCow, hW]
        refine ⟨setEntry w.mem (f * 4096) k (markCow e), fun x hx => setEntry_other _ _ hk hx, ?_, ?_⟩
        · rw [hmark]
          exact rd_setEntry_self w.mem f ⟨k, hk⟩ (markCow e)
        · have := congrFun (rd_setEntry_self w.mem f ⟨k, hk⟩ (markCow e)) ⟨k, hk⟩
          rw [update_self] at this
          simp only [Bool.not_true, Bool.false_eq_true, if_false, if_true, ← hid, hcopy]
          congr 2
  obtain ⟨m, hmem, hsrc, hres⟩ := key
  have hself := rd_setEntry_self m f' ⟨k, hk⟩ (copyLeaf e)
  have hother : rd (setEntry m (f' * 4096) k (copyLeaf e)) f = rd m f :=
    rd_set_ne (i := ⟨k, hk⟩) hne
  have hmf' : rd m f' = rd w.mem f' := rd_congr fun x hx => hmem x (by omega)
  rw [hres]
  refine ⟨fun i hi => ?_, fun i => ?_, fun q => ?_, fun x h1 h2 => ?_, h.kernel⟩
  · change rd (setEntry m (f' * 4096) k (copyLeaf e)) f' i = _
    by_cases hik : i = ⟨k, hk⟩
    · rw [hik, hself, update_self]
    · rw [hself, update_of_ne hik, hmf']
      exact h.copied i (by rw [Fin.ext_iff] at hik; dsimp only at hik; omega)
  · change rd (setEntry m (f' * 4096) k (copyLeaf e)) f i = _
    rw [hother, hsrc]
    by_cases hik : i = ⟨k, hk⟩
    · rw [hik, update_self, if_pos (by simp)]
    · have hne' : i.val ≠ k := fun h => hik (Fin.ext h)
      rw [update_of_ne hik, h.marked i]
      by_cases hlt : i.val < k
      · rw [if_pos hlt, if_pos (by omega)]
      · rw [if_neg hlt, if_neg (by omega)]
  · rw [sum_lt_succ _ hk, Nat.add_comm, iterate_add_apply, ← hedef]
    have hst : pageState (if has e ptePresent then retainPage (addrOf e) w.pmm else w.pmm) q =
        retainState^[refs q e] (pageState w.pmm q) := by
      cases hP : has e ptePresent with
      | false => rw [refs_absent hP]; rfl
      | true =>
        refine pageState_retain_refs hP (hlt _ ?_).1 q
        rw [refs_present hP, if_pos rfl]
        exact Nat.one_pos
    change pageState (if has e ptePresent then retainPage (addrOf e) w.pmm else w.pmm) q = _
    rw [hst, h.pmm q]
    by_cases hq : q = f'
    · have h0 : refs q e = 0 := by
        by_contra hc
        exact (hlt q (by omega)).2 hq
      rw [if_pos hq, if_pos hq, h0]
      rfl
    · rw [if_neg hq, if_neg hq]
  · change setEntry m (f' * 4096) k (copyLeaf e) x = _
    rw [setEntry_other m _ hk h2, hmem x h1, h.mem x h1 h2]

/-! ### Upper tables -/

/-- What `clone_table` at `depth` has to deliver on a well-formed subtree. -/
def CloneSpec (depth : ℕ) : Prop :=
  ∀ (f : ℕ) (w₀ w : World) (dst : ℕ),
    let t := view cls cap (rd w₀.mem) depth f
    Ok okEntry t → (∀ g, own g t ≤ 1) → InUse w₀.pmm t →
    cloneTable depth (f * 4096) w₀ = (dst, w) → dst ≠ 0 →
    ∃ f', dst = f' * 4096 ∧ f' < maxManagedPages ∧
      Cloned w₀ w t (view cls cap (rd w.mem) depth f') ∧
      view cls cap (rd w.mem) depth f = mapLeaf markLeaf t

/-- A tree that can be cloned: each table has a frame of its own, and the frames it refers to are in use. -/
structure Clonable (s : State) (t : PTree) : Prop where
  ok : Ok okEntry t
  uniq : ∀ g, own g t ≤ 1
  inUse : InUse s t

section Clonable

variable {s : State} {t t' : PTree} {m : Mem} {d f k K : ℕ} {i : Fin 512}

theorem tally_behind_le (g : ℕ → ℕ) (h : Entry → ℕ) (hki : k ≤ i.val) (hi : i.val < K) :
    tally g h (upTo cls cap k (rd m) d f) + tally g h (behind m d f i) ≤ tally g h (upTo cls cap K (rd m) d f) :=
  tally_upTo_kid g h hki hi

theorem Clonable.sub (h : Clonable s t) (hok : Ok okEntry t') (hle : ∀ g h, tally g h t' ≤ tally g h t) :
    Clonable s t' :=
  ⟨hok, fun g => (hle _ _).trans (h.uniq g),
    fun q hq => h.inUse q (lt_of_lt_of_le hq (Nat.add_le_add (hle _ _) (hle _ _)))⟩

theorem Clonable.first (hk : k ≤ K) (h : Clonable s (upTo cls cap K (rd m) d f)) :
    Clonable s (upTo cls cap k (rd m) d f) := by
  refine h.sub (fun i => ?_) fun g h => tally_upTo_mono g h hk _ _ _
  have hi := h.ok i
  dsimp only at hi ⊢
  split_ifs with hik
  · rwa [if_pos (by omega)] at hi
  · trivial

theorem Clonable.behind (hi : i.val < K) (h : Clonable s (upTo cls cap K (rd m) d f)) :
    Clonable s (behind m d f i) := by
  refine h.sub ?_ fun g h => (Nat.le_add_left _ _).trans (tally_behind_le g h le_rfl hi)
  have hkid := h.ok i
  dsimp only at hkid
  rwa [if_pos hi] at hkid

variable {g : ℕ}

/-- A table of the slots before `i` is not one behind slot `i`. -/
theorem Clonable.apart (h : Clonable s (upTo cls cap K (rd m) d f)) (hi : i.val < K)
    (hg : 0 < own g (upTo cls cap i (rd m) d f)) : own g (Vmm.behind m d f i) = 0 := by
  have hsplit : own g _ + own g _ ≤ own g _ := tally_behind_le (m := m) (d := d) (f := f) _ _ le_rfl hi
  have hone := h.uniq g
  omega

theorem Clonable.used (h : Clonable s t) (hg : 0 < own g t) : isPageUsed s g = true :=
  (h.inUse g (Nat.add_pos_left hg _)).2

theorem Cloned.clonable {w₀ w : World} {src dst : PTree} (h : Cloned w₀ w src dst) (ht : Clonable w₀.pmm t) :
    Clonable w.pmm t :=
  ⟨ht.ok, ht.uniq, h.inUse ht.inUse⟩

end Clonable

/-- One slot of an upper table: absent, or a table that is cloned. -/
theorem cloneNode_cases (k : Fin 512) (hsub : Clonable w.pmm (behind w.mem d f k)) :
    has (rd w.mem f k) ptePresent = false ∧ cloneNode (cloneTable d) (f * 4096) (f' * 4096) k w =
        .ok { w with mem := setEntry w.mem (f' * 4096) k 0 } ∨
      ∃ g < maxManagedPages, rd w.mem f k = tableEntry (g * 4096) ∧ Clonable w.pmm (view cls cap (rd w.mem) d g) ∧
        ∃ sub w₁, cloneTable d (g * 4096) w = (sub, w₁) ∧ cloneNode (cloneTable d) (f * 4096) (f' * 4096) k w =
          if sub = 0 then .error w₁ else .ok { w₁ with mem := setEntry w₁.mem (f' * 4096) k (tableEntry sub) } := by
  obtain ⟨hok, hu, hin⟩ := hsub
  unfold behind at hok hu hin
  unfold cloneNode
  simp only [← rd.eq_def]
  rcases slot_cases (fun g => view_frame (rd w.mem) d g) hok with hP | ⟨g, hg, he, hsub⟩
  · exact .inl ⟨hP, by simp [hP]⟩
  · obtain ⟨hP, hH, -, -, hA⟩ := tableEntry_bits hg
    rw [he, kidOf_table hg] at hu hin
    refine .inr ⟨g, hg, he, ⟨hsub, hu, hin⟩, _, _, rfl, ?_⟩
    simp only [he, hP, hH, hA, Bool.not_true, Bool.false_eq_true, if_false]

/-- The subtree behind a slot is cloned, then its entry is written. -/
theorem cloneNode_slot (hspec : CloneSpec d) (k : Fin 512)
    (hsub : Clonable w.pmm (behind w.mem d f k))
    (h : cloneNode (cloneTable d) (f * 4096) (f' * 4096) k w = .ok w') :
    ∃ w₁ e', w' = { w₁ with mem := setEntry w₁.mem (f' * 4096) k e' } ∧
      Cloned w w₁ (behind w.mem d f k) (kidOf cls (view cls cap (rd w₁.mem) d) e') ∧
      kidOf cls (view cls cap (rd w₁.mem) d) (rd w.mem f k) = mapLeaf markLeaf (behind w.mem d f k) := by
  unfold behind at hsub ⊢
  rcases cloneNode_cases k hsub with ⟨hP, hcall⟩ | ⟨g, hg, he, ⟨hok, hu, hin⟩, sub, w₁, hc, hcall⟩
  · rw [hcall] at h
    refine ⟨w, 0, (Except.ok.inj h).symm, ?_, ?_⟩
    · rw [kidOf_absent hP, kidOf_absent absent_zero]
      exact Cloned.nil w
    · rw [kidOf_absent hP]; rfl
  · rw [hcall] at h
    split_ifs at h with h0
    obtain ⟨f₁, rfl, hlt, hcl, hmark⟩ := hspec g w w₁ sub hok hu hin hc h0
    refine ⟨w₁, tableEntry (f₁ * 4096), (Except.ok.inj h).symm, ?_, ?_⟩
    · rw [he, kidOf_table hg, kidOf_table hlt]
      exact ⟨hcl.copy, ⟨⟨by rwa [view_frame], by rw [view_frame]⟩, hcl.ok⟩, hcl.fresh, hcl.uniq,
        hcl.pmm, hcl.mem, hcl.kernel⟩
    · rw [he, kidOf_table hg, kidOf_table hg, hmark]
      rfl

/-- After the first `k` slots of an upper table. -/
structure NodeLoop (w₀ : World) (d f f' k : ℕ) (w : World) : Prop where
  cloned : Cloned w₀ w (upTo cls cap k (rd w₀.mem) d f) (upTo cls cap k (rd w.mem) d f')
  marked : upTo cls cap k (rd w.mem) d f = mapLeaf markLeaf (upTo cls cap k (rd w₀.mem) d f)
  root : rd w.mem f = rd w₀.mem f

theorem NodeLoop.start (h : Allocated w₀ w f') (hne : f ≠ f') :
    NodeLoop w₀ d f f' 0 w := by
  have hroot : rd w.mem f = rd w₀.mem f := rd_congr fun x hx => h.mem x (by omega)
  have hown : ∀ g, own g (upTo cls cap 0 (rd w.mem) d f') = if f' = g then 1 else 0 :=
    fun g => tally_upTo_zero _ _ _ _ _
  have hcnt : ∀ q, cnt (refs q) (upTo cls cap 0 (rd w₀.mem) d f) = 0 :=
    fun q => tally_upTo_zero _ _ _ _ _
  refine ⟨⟨?_, ?_, fun g hg => ?_, fun g => ?_, fun q => ?_, fun x h1 h2 => ?_, h.kernel⟩, ?_, hroot⟩
  · rw [upTo_zero, upTo_zero]; exact fun _ => trivial
  · rw [upTo_zero]; exact fun _ => trivial
  · rw [hown g] at hg
    split_ifs at hg with hfg
    · subst hfg; exact ⟨h.lt, h.free⟩
    · exact absurd hg (by omega)
  · rw [hown g]; split_ifs <;> omega
  · rw [hown q, hcnt q, h.pmm q]
    by_cases hq : q = f'
    · rw [if_pos hq, if_pos hq.symm, if_pos Nat.one_pos]
    · rw [if_neg hq, if_neg (Ne.symm hq), if_neg (lt_irrefl 0)]
      rfl
  · rw [hown] at h2
    refine h.mem x fun hx => ?_
    rw [if_pos hx.symm] at h2
    exact absurd h2 one_ne_zero
  · rw [upTo_zero, upTo_zero]; rfl

/-- A subtree that the loop has not come to is as it was. -/
theorem NodeLoop.kid_same {k : ℕ} (hki : k ≤ i.val) (hi : i.val < K)
    (hc : Clonable w₀.pmm (upTo cls cap K (rd w₀.mem) d f)) (h : NodeLoop w₀ d f f' k w) :
    behind w.mem d f i = behind w₀.mem d f i := by
  obtain ⟨hcl, -, hroot⟩ := h
  unfold behind
  rw [hroot]
  refine kidOf_view_congr fun g hg => ?_
  have hsplit : own g (upTo cls cap k (rd w₀.mem) d f) + own g (behind w₀.mem d f i) ≤
      own g (upTo cls cap K (rd w₀.mem) d f) := tally_behind_le _ _ hki hi
  have hpos : 0 < own g (behind w₀.mem d f i) := hg
  have hone := hc.uniq g
  exact hcl.rd_same (hc.used (by omega)) (by omega)

theorem NodeLoop.step {w₀ w w' : World} {d f f' k : ℕ} (hspec : CloneSpec d) (hk : k < 512)
    (hc : Clonable w₀.pmm (upTo cls cap (k + 1) (rd w₀.mem) d f)) (h : NodeLoop w₀ d f f' k w)
    (hstep : cloneNode (cloneTable d) (f * 4096) (f' * 4096) k w = .ok w') :
    NodeLoop w₀ d f f' (k + 1) w' := by
  have hkid_w := h.kid_same (i := ⟨k, hk⟩) le_rfl (Nat.lt_succ_self k) hc
  have hkid_c := hc.behind (i := ⟨k, hk⟩) (Nat.lt_succ_self k)
  have hapart : ∀ g, 0 < own g (upTo cls cap k (rd w₀.mem) d f) → own g (behind w₀.mem d f ⟨k, hk⟩) = 0 := fun g hg =>
    hc.apart (Nat.lt_succ_self k) hg
  have hT := hc.first (Nat.le_succ k)
  obtain ⟨hcl, hmark, hroot⟩ := h
  obtain ⟨w₁, e', rfl, hc₁, hmark₁⟩ := cloneNode_slot hspec ⟨k, hk⟩ (hkid_w ▸ hcl.clonable hkid_c) hstep
  rw [hkid_w] at hc₁ hmark₁
  rw [hroot] at hmark₁
  set T := upTo cls cap k (rd w₀.mem) d f
  set D := upTo cls cap k (rd w.mem) d f'
  set kid := behind w₀.mem d f ⟨k, hk⟩
  have hsplit : ∀ g, own g (upTo cls cap (k + 1) (rd w₀.mem) d f) = own g T + own g kid :=
    fun g => tally_upTo_succ _ _ hk _ _ _
  have hcsplit : ∀ q, cnt (refs q) (upTo cls cap (k + 1) (rd w₀.mem) d f) =
      cnt (refs q) T + cnt (refs q) kid := fun q => tally_upTo_succ _ _ hk _ _ _
  have hTself : 0 < own f T := own_upTo_self k _ _ _
  have hDself : 0 < own f' D := own_upTo_self k _ _ _
  set kid' := kidOf cls (view cls cap (rd w₁.mem) d) e' with hkid'
  have hself := rd_setEntry_self w₁.mem f' ⟨k, hk⟩ e'
  have hother : ∀ g, g ≠ f' → rd (setEntry w₁.mem (f' * 4096) k e') g = rd w₁.mem g :=
    fun g hg => rd_set_ne (i := ⟨k, hk⟩) hg
  have hf'_free : ∀ g, isPageUsed w₀.pmm g = true → g ≠ f' := by
    rintro g hg rfl
    exact hDself.ne' (hcl.not_own_of_used hg)
  -- tables of the copy made so far
  have hD_same : ∀ g, 0 < own g D → rd w₁.mem g = rd w.mem g := fun g hg => by
    refine hc₁.rd_same (hcl.used (.inr hg)) (Nat.eq_zero_of_not_pos fun hpos => ?_)
    exact hg.ne' (hcl.not_own_of_used (hkid_c.used hpos))
  -- tables of the source handled so far
  have hT_same : ∀ g, 0 < own g T → rd (setEntry w₁.mem (f' * 4096) k e') g = rd w.mem g := fun g hg => by
    rw [hother g (hf'_free g (hT.used hg))]
    exact hc₁.rd_same (hcl.used (.inl (hT.used hg))) (hapart g hg)
  have hdst : upTo cls cap (k + 1) (rd (setEntry w₁.mem (f' * 4096) k e')) d f' =
      setSlot ⟨k, hk⟩ kid' D := by
    rw [upTo_succ hk (fun i hi => ?_) (hcl.uniq f') (fun g hne hg => ?_)]
    · congr 1
      rw [hself, update_self]
      refine kidOf_view_congr fun g hg => hother g ?_
      rintro rfl
      have := hc₁.not_own_of_used (hcl.used (.inr hDself))
      rw [hkid'] at this
      omega
    · rw [hself, update_of_ne (by rw [ne_eq, Fin.ext_iff]; dsimp only; omega), hD_same f' hDself]
    · rw [hother g hne, hD_same g hg]
  have hsrc : upTo cls cap (k + 1) (rd w₀.mem) d f = setSlot ⟨k, hk⟩ kid T :=
    upTo_succ hk (fun _ _ => rfl) (hT.uniq f) (fun _ _ _ => rfl)
  have hown : ∀ g, own g (setSlot ⟨k, hk⟩ kid' D) = own g D + own g kid' :=
    fun g => tally_setSlot_upTo _ _ hk _ _ _ _
  have hmap : ∀ g, own g (upTo cls cap k (rd w.mem) d f) = own g T := fun g => by
    rw [hmark, own_mapLeaf]
  -- a fresh table of the new subtree is not one of the copy so far
  have hfresh₁ : ∀ g, 0 < own g D → own g kid' = 0 := fun g hg => hc₁.not_own_of_used (hcl.used (.inr hg))
  refine ⟨⟨?_, ?_, fun g hg => ?_, fun g => ?_, fun q => ?_, fun x h1 h2 => ?_, ?_⟩, ?_, ?_⟩
  · rw [hsrc]
    exact hdst ▸ hcl.copy.setSlot hc₁.copy
  · exact hdst ▸ hcl.ok.setSlot hc₁.ok
  · simp only [hdst, hown] at hg
    rcases Nat.eq_zero_or_pos (own g D) with h0 | hpos
    · obtain ⟨h1, h2⟩ := hc₁.fresh g (by omega)
      refine ⟨h1, Bool.eq_false_iff.2 fun hused => ?_⟩
      rw [hcl.used (.inl hused)] at h2
      exact Bool.noConfusion h2
    · exact hcl.fresh g hpos
  · simp only [hdst, hown]
    have h1 := hcl.uniq g
    have h2 := hc₁.uniq g
    have h3 := hfresh₁ g
    omega
  · simp only [hdst, hown, hcsplit]
    rw [hc₁.pmm q]
    by_cases h1 : 0 < own q kid'
    · rw [if_pos h1, if_pos (by omega)]
    · rw [if_neg h1, hcl.pmm q]
      by_cases h2 : 0 < own q D
      · have h0 : cnt (refs q) kid = 0 := Nat.eq_zero_of_not_pos fun hpos =>
          h2.ne' (hcl.not_own_of_used (hkid_c.inUse q (Nat.add_pos_right _ hpos)).2)
        rw [if_pos h2, if_pos (by omega), h0]
        rfl
      · rw [if_neg h2, if_neg (by omega), Nat.add_comm, iterate_add_apply]
  · rw [hsplit] at h1
    simp only [hdst, hown] at h2
    change setEntry w₁.mem (f' * 4096) k e' x = _
    rw [setEntry_other w₁.mem e' hk (by rintro rfl; omega), hc₁.mem x (by omega) (by omega),
      hcl.mem x (by omega) (by omega)]
  · exact hc₁.kernel.trans hcl.kernel
  · rw [hsrc, mapLeaf_setSlot, ← hmark]
    change upTo cls cap (k + 1) (rd (setEntry w₁.mem (f' * 4096) k e')) d f = _
    rw [upTo_succ hk (fun i _ => by rw [hT_same f hTself])
      (by rw [hmap]; exact hT.uniq f)
      (fun g _ hg => hT_same g (by rwa [hmap] at hg))]
    congr 1
    rw [hT_same f hTself, hroot, ← hmark₁]
    refine kidOf_view_congr fun g hg => hother g (hf'_free g (hkid_c.used ?_))
    rw [← own_mapLeaf markLeaf, ← hmark₁]
    exact hg
  · change rd (setEntry w₁.mem (f' * 4096) k e') f = _
    rw [hT_same f hTself, hroot]

/-- The loop over the first `K` slots. -/
theorem cloneLoop_spec (hspec : CloneSpec d) (hK : K ≤ 512) {w₁ : World}
    (hc : Clonable w₀.pmm (upTo cls cap K (rd w₀.mem) d f)) (halloc : Allocated w₀ w₁ f')
    (h : forUpE (cloneNode (cloneTable d) (f * 4096) (f' * 4096)) K 0 w₁ = .ok w) : NodeLoop w₀ d f f' K w := by
  have hne : f ≠ f' := halloc.ne_of_used (hc.used (own_upTo_self K _ _ _))
  have := forUpE_inv K 0 w₁ w
    (fun k w w' _ hk hloop hstep => hloop.step hspec (by omega) (hc.first (by omega)) hstep)
    (NodeLoop.start halloc hne) h
  rwa [Nat.zero_add] at this

theorem allocated (h : allocPage w.pmm = (a, s))
    (hok : a ≠ invalidPhysicalAddress) :
    ∃ f', a = f' * 4096 ∧ Allocated w { w with pmm := s } f' := by
  obtain ⟨f', rfl, hlt, hfree, hst⟩ := allocPage_spec h hok
  exact ⟨f', rfl, hlt, hfree, hst, fun _ _ => rfl, rfl⟩

/-- `ensure_table` follows a present entry, or hooks in a fresh table of zeros. -/
theorem ensureTable_cases (h : ensureTable (g * 4096) i w = some (a, w')) :
    has (rd w.mem g i) ptePresent = true ∧ a = addrOf (rd w.mem g i) ∧ w' = w ∨
      has (rd w.mem g i) ptePresent = false ∧ ∃ F w₁, a = F * 4096 ∧ Allocated w w₁ F ∧ (∀ j, rd w₁.mem F j = 0) ∧
        w' = { w₁ with mem := setEntry w₁.mem (g * 4096) i (tableEntry (F * 4096)) } := by
  unfold ensureTable at h
  simp only [← rd.eq_def] at h
  cases hP : has (rd w.mem g i) ptePresent with
  | true =>
    simp only [hP, Bool.not_true, Bool.false_eq_true, if_false, Option.some.injEq, Prod.mk.injEq] at h
    exact .inl ⟨rfl, h.1.symm, h.2.symm⟩
  | false =>
    simp only [hP, Bool.not_false, if_true] at h
    cases halloc : allocPage w.pmm with
    | mk b st =>
      simp only [halloc] at h
      split_ifs at h with hinv
      obtain ⟨F, rfl, ha⟩ := allocated halloc hinv
      obtain ⟨hz1, hz2⟩ := zeroTable_spec F w.mem
      generalize zeroTable (F * 4096) w.mem = m₁ at hz1 hz2 h
      simp only [Option.some.injEq, Prod.mk.injEq] at h
      obtain ⟨rfl, rfl⟩ := h
      refine .inr ⟨rfl, F, { w with pmm := st, mem := m₁ }, ?_, ⟨ha.lt, ha.free, ha.pmm, hz1, rfl⟩, hz2, rfl⟩
      rw [rd_setEntry_self, update_self, (tableEntry_bits ha.lt).2.2.2.2]

/-- The ways through an upper level of `clone_table`. -/
theorem cloneTable_cases {src : ℕ} (h : cloneTable (d + 1) src w₀ = (dst, w)) :
    (dst = 0 ∧ w = w₀ ∧ (allocPage w₀.pmm).1 = invalidPhysicalAddress) ∨ ∃ f' w₁, Allocated w₀ w₁ f' ∧
      (dst = f' * 4096 ∧ forUpE (cloneNode (cloneTable d) src (f' * 4096)) 512 0 w₁ = .ok w ∨
        ∃ w', dst = 0 ∧ w = { w' with pmm := freePage (f' * 4096) w'.pmm } ∧
          forUpE (cloneNode (cloneTable d) src (f' * 4096)) 512 0 w₁ = .error w') := by
  unfold cloneTable at h
  cases ha : allocPage w₀.pmm with
  | mk a s =>
    simp only [ha] at h
    split_ifs at h with hinv
    · obtain rfl : s = w₀.pmm := allocPages_fail (hinv ▸ ha)
      exact .inl ⟨(Prod.mk.inj h).1.symm, (Prod.mk.inj h).2.symm, hinv⟩
    obtain ⟨f', rfl, halloc⟩ := allocated ha hinv
    refine .inr ⟨f', _, halloc, ?_⟩
    split at h
    · rename_i hrun
      cases h
      exact .inl ⟨rfl, hrun⟩
    · rename_i w' hrun
      exact .inr ⟨w', (Prod.mk.inj h).1.symm, (Prod.mk.inj h).2.symm, hrun⟩

theorem cloneSpec_zero : CloneSpec 0 := by
  intro f w₀ w dst t hok hu hin h h0
  unfold cloneTable at h
  cases ha : allocPage w₀.pmm with
  | mk a s =>
    simp only [ha] at h
    split_ifs at h with hinv
    · exact absurd (Prod.mk.inj h).1.symm h0
    cases h
    obtain ⟨f', rfl, halloc⟩ := allocated ha hinv
    have hne : f ≠ f' := by
      rintro rfl
      have := (hin f (by simp [t, view, own_leaf])).2
      rw [halloc.free] at this
      exact Bool.noConfusion this
    have hrefs : ∀ (i : Fin 512) q, 0 < refs q (rd w₀.mem f i) → q < maxManagedPages ∧ q ≠ f' := by
      intro i q hq
      have hcnt : refs q (rd w₀.mem f i) ≤ cnt (refs q) t := by
        rw [show t = .leaf f (rd w₀.mem f) from rfl, cnt_leaf]
        exact Finset.single_le_sum (f := fun i => refs q (rd w₀.mem f i)) (fun _ _ => Nat.zero_le _)
          (Finset.mem_univ i)
      obtain ⟨h1, h2⟩ := hin q (by omega)
      refine ⟨h1, ?_⟩
      rintro rfl
      rw [halloc.free] at h2
      exact Bool.noConfusion h2
    have hl := forUp_inv 512 0 _
      (fun k w _ hk hl => hl.step (by omega) hne (hrefs ⟨k, by omega⟩)) (LeafLoop.start halloc hne)
    rw [Nat.zero_add] at hl
    set w := forUp (cloneLeaf (f * 4096) (f' * 4096)) 512 0 { w₀ with pmm := s }
    have hown : ∀ g, own g (view cls cap (rd w.mem) 0 f') = if f' = g then 1 else 0 :=
      fun g => own_leaf _ _ _
    refine ⟨f', rfl, halloc.lt, ⟨fun i => hl.copied i i.isLt, trivial, fun g hg => ?_, fun g => ?_,
      fun q => ?_, fun x h1 h2 => ?_, hl.kernel⟩, ?_⟩
    · rw [hown g] at hg
      split_ifs at hg with hfg
      · subst hfg; exact ⟨halloc.lt, halloc.free⟩
      · exact absurd hg (by omega)
    · rw [hown g]; split_ifs <;> omega
    · rw [hl.pmm q, hown q, show t = .leaf f (rd w₀.mem f) from rfl, cnt_leaf]
      simp only [Fin.is_lt, if_true]
      by_cases hq : q = f'
      · rw [if_pos hq, if_pos hq.symm, if_pos Nat.one_pos]
      · rw [if_neg hq, if_neg (Ne.symm hq), if_neg (lt_irrefl 0)]
    · rw [hown] at h2
      rw [show t = .leaf f (rd w₀.mem f) from rfl, own_leaf] at h1
      exact hl.mem x (fun hx => by simp [hx] at h1) (fun hx => by simp [hx] at h2)
    · refine congrArg (Trie.leaf f) (funext fun i => ?_)
      rw [hl.marked i, if_pos i.isLt]

theorem view_upTo (hd : d < 2) (m : Mem) (f : ℕ) :
    view cls cap (rd m) (d + 1) f = upTo cls cap 512 (rd m) d f := by
  rw [view_succ, cap, if_neg (by omega)]

theorem cloneSpec_succ (hd : d < 2) (hspec : CloneSpec d) : CloneSpec (d + 1) := by
  intro f w₀ w dst t hok hu hin h h0
  have hc : Clonable w₀.pmm t := ⟨hok, hu, hin⟩
  rw [show t = _ from view_upTo hd w₀.mem f] at hc ⊢
  rcases cloneTable_cases h with ⟨hz, -⟩ | ⟨f', w₁, halloc, ⟨rfl, hrun⟩ | ⟨-, hz, -⟩⟩
  · exact absurd hz h0
  · obtain ⟨hcl, hmark, -⟩ := cloneLoop_spec hspec le_rfl hc halloc hrun
    refine ⟨f', rfl, halloc.lt, ?_, ?_⟩
    · rwa [view_upTo hd]
    · rwa [view_upTo hd]
  · exact absurd hz h0

theorem cloneSpec_two : CloneSpec 2 :=
  cloneSpec_succ (by decide) (cloneSpec_succ (by decide) cloneSpec_zero)

/-- The ways through `clone_address_space`; `w₁` has the copy of the kernel half. -/
inductive CloneRun (f : ℕ) (w : World) : ℕ → World → Prop
  | none (h : w.kernelPml4Phys = 0 ∨ (allocPage w.pmm).1 = invalidPhysicalAddress) : CloneRun f w 0 w
  | done {f' : ℕ} {w₁ w' : World} (ha : Allocated w w₁ f')
      (htop : f ≠ f' → ∀ i : Fin 512, 256 ≤ i.val → rd w₁.mem f' i = rd w.mem f i)
      (hrun : forUpE (cloneNode (cloneTable 2) (f * 4096) (f' * 4096)) 256 0 w₁ = .ok w') : CloneRun f w (f' * 4096) w'
  | stopped {f' i : ℕ} {w₁ w₂ : World} (hk : w.kernelPml4Phys ≠ 0) (ha : Allocated w w₁ f')
      (hrun : forUpE (fun i w => (cloneNode (cloneTable 2) (f * 4096) (f' * 4096) i w).mapError fun w => (i, w)) 256 0 w₁ =
        .error (i, w₂)) : CloneRun f w 0 (undoClone (f' * 4096) i w₂)

theorem cloneRun (h : cloneAddressSpace (f * 4096) w = (dst, w')) : CloneRun f w dst w' := by
  unfold cloneAddressSpace at h
  split_ifs at h with hk
  · cases h
    exact .none (.inl hk)
  cases ha : allocPage w.pmm with
  | mk a s =>
    simp only [ha] at h
    split_ifs at h with hinv
    · obtain rfl : s = w.pmm := allocPages_fail (hinv ▸ ha)
      cases h
      exact .none (.inr (ha ▸ hinv))
    obtain ⟨f', rfl, halloc⟩ := allocated ha hinv
    -- the kernel half is copied first; it lies in the fresh frame
    obtain ⟨hmem, -⟩ := forUp_setEntry (fun i m => entry m (f * 4096) i) 256 256 w.mem le_rfl
    have htop : f ≠ f' → _ := fun hne => forUp_copyEntry hne 256 256 w.mem le_rfl
    generalize forUp (fun i m => setEntry m (f' * 4096) i (entry m (f * 4096) i)) 256 256 w.mem = m at hmem htop h
    have hhalf : Allocated w { w with pmm := s, mem := m } f' := ⟨halloc.lt, halloc.free, halloc.pmm, hmem, rfl⟩
    split at h
    · rename_i hrun
      cases h
      exact .done hhalf (fun hne i hi => htop hne i hi i.isLt) (forUpE_mapError.mp hrun)
    · rename_i hrun
      cases h
      exact .stopped hk hhalf hrun

theorem tree_upTo (m : Mem) (f : ℕ) : tree m (f * 4096) = upTo cls cap 256 (rd m) 2 f := by
  rw [tree, Nat.mul_div_cancel _ (by decide)]
  rfl

/-- `clone_address_space` on the user half. -/
theorem cloneAddressSpace_spec (hc : Clonable w₀.pmm (tree w₀.mem (f * 4096)))
    (h : cloneAddressSpace (f * 4096) w₀ = (dst, w)) (h0 : dst ≠ 0) :
    ∃ f', dst = f' * 4096 ∧ Cloned w₀ w (tree w₀.mem (f * 4096)) (tree w.mem dst) ∧
      tree w.mem (f * 4096) = mapLeaf markLeaf (tree w₀.mem (f * 4096)) := by
  rw [tree_upTo] at hc
  cases cloneRun h with
  | none _ => exact absurd rfl h0
  | stopped _ _ _ => exact absurd rfl h0
  | @done f' _ _ ha _ hrun =>
    obtain ⟨hcl, hmark, -⟩ := cloneLoop_spec cloneSpec_two (by decide) hc ha hrun
    refine ⟨f', rfl, ?_, ?_⟩
    · rw [tree_upTo, tree_upTo]
      exact hcl
    · rw [tree_upTo, tree_upTo]
      exact hmark

end Tori.Vmm
