import Tori.Proofs.VmmAccount

/-! Operations that change one entry of a live address space: the table allocation of
`map_page`, its leaf write, and the two outcomes of `handle_cow_fault`. All of them replace one
table of one tree (`Radix.modify`); the tables of the other trees are untouched. -/

namespace Tori.Vmm

open Loop Pmm Radix Function

variable {live : Finset ℕ} {p : ℕ}

/-- The effect of replacing the table at one path of the tree of `p`. -/
structure TableChange (m m' : Mem) (live : Finset ℕ) (p : ℕ) (ix : ℕ → Fin 512) (k j : ℕ)
    (s : PTree) (φ : PTree → PTree) : Prop where
  at_root : subAt ix k j (tree m p) = some s
  tree_eq : tree m' p = modify ix k φ j (tree m p)
  others : ∀ p' ∈ live, p' ≠ p → tree m' p' = tree m p'
  tables_eq : ∀ q, tables m' live q + own q s = tables m live q + own q (φ s)
  leaves_eq : ∀ q, leaves m' live q + cnt (refs q) s = leaves m live q + cnt (refs q) (φ s)

/-- `s` is the table of level `k` on the walk to the user address `va` in the space `p`. -/
structure UserPath (base : ℕ → Bool × ℕ) (w : World) (live : Finset ℕ) (p va k j : ℕ) (s : PTree) : Prop
    extends Inv base w live where
  mem : p ∈ live
  half : pml4Idx va < 256
  level : k + j = 3
  sub : subAt (ix va) k j (tree w.mem p) = some s

theorem Inv.userPath {base : ℕ → Bool × ℕ} {w : World} {va : ℕ} (h : Inv base w live) (hp : p ∈ live)
    (hva : pml4Idx va < 256) : UserPath base w live p va 3 0 (tree w.mem p) :=
  ⟨h, hp, hva, rfl, rfl⟩

namespace UserPath

variable {base : ℕ → Bool × ℕ} {w w' : World} {live : Finset ℕ} {p va k j q : ℕ} {s : PTree} {φ : PTree → PTree} {m' : Mem}

section

variable (h : UserPath base w live p va k j s)
include h

theorem eq_view : s = view cls cap (rd w.mem) k s.frame := by
  have hs := h.sub
  rw [tree, ← h.level] at hs
  exact subAt_view hs

theorem own_le (q : ℕ) : own q s ≤ own q (tree w.mem p) :=
  tally_subAt_le _ _ h.sub

theorem own_le_tables (q : ℕ) : own q s ≤ tables w.mem live q :=
  (h.own_le q).trans (Vmm.own_le_tables h.mem)

theorem own_frame : 0 < own s.frame s := by
  have : 0 < own s.frame (view cls cap (rd w.mem) k s.frame) := own_view_self _ _ _
  rwa [← h.eq_view] at this

theorem tables_frame : 0 < tables w.mem live s.frame :=
  h.own_frame.trans_le (h.own_le_tables _)

theorem ne_frame (hq : tables w.mem live q = 0) : q ≠ s.frame := by
  have hsf := h.tables_frame
  rintro rfl
  omega

end

/-- A slot on the way is empty, or the walk goes on below it. -/
theorem slot_cases (h : UserPath base w live p va (k + 1) j s) :
    has (rd w.mem s.frame (ix va (k + 1))) ptePresent = false ∧ leafAt (ix va) 3 (tree w.mem p) = none ∨
      ∃ g < maxManagedPages, rd w.mem s.frame (ix va (k + 1)) = tableEntry (g * 4096) ∧
        UserPath base w live p va k (j + 1) (view cls cap (rd w.mem) k g) := by
  have hsv := h.eq_view
  have hsok := (h.ok p h.mem).subAt h.sub
  rw [hsv] at hsok
  rcases view_slot_cases hsok (ix_cap h.half) with hP | ⟨g, hg, he, -⟩
  · refine .inl ⟨hP, ?_⟩
    rw [← h.level, leafAt_subAt h.sub (SamePath.refl _ _ _), hsv]
    exact leafAt_absent hP
  · have hs := h.sub
    rw [hsv, view] at hs
    refine .inr ⟨g, hg, he, h.toInv, h.mem, h.half, by have := h.level; omega, ?_⟩
    refine subAt_down (e := tableEntry (g * 4096)) ?_ hs
    rw [if_pos (ix_cap h.half), he, kidOf_table hg]

theorem tableChange (h : UserPath base w live p va k j s)
    (hrd : ∀ g, g ≠ s.frame → 0 < tables w.mem live g → rd m' g = rd w.mem g)
    (hφ : view cls cap (rd m') k s.frame = φ s) :
    TableChange w.mem m' live p (ix va) k j s φ := by
  have hself := lt_of_lt_of_le h.own_frame (h.own_le s.frame)
  have htree : tree m' p = modify (ix va) k φ j (tree w.mem p) := by
    have hs := h.sub
    have hu := h.own_le_one h.mem
    have hown := fun g => Vmm.own_le_tables (m := w.mem) (q := g) h.mem
    rw [tree, ← h.level] at hs hu hown ⊢
    rw [tree, ← h.level]
    exact view_modify hs hu (fun g hg hpos => hrd g hg (lt_of_lt_of_le hpos (hown g))) hφ
  have hothers : ∀ p' ∈ live, p' ≠ p → tree m' p' = tree w.mem p' := by
    intro p' hp' hne
    refine view_congr _ _ fun g hg => hrd g ?_ (lt_of_lt_of_le hg (Vmm.own_le_tables hp'))
    rintro rfl
    have h1 := own_pair_le_tables (m := w.mem) (q := s.frame) h.mem hp' (Ne.symm hne)
    have h2 := h.single s.frame
    change 0 < own s.frame (tree w.mem p') at hg
    omega
  refine ⟨h.sub, htree, hothers, fun q => ?_, fun q => ?_⟩
  · have h1 := sum_replace (fun p => own q (tree w.mem p)) (fun p => own q (tree m' p)) h.mem
      fun p' hp' hne => by rw [hothers p' hp' hne]
    have h2 := tally_modify (fun g => if g = q then 1 else 0) (fun _ => 0) φ h.sub
    rw [← htree] at h2
    change own q (tree m' p) + own q s = own q (tree w.mem p) + own q (φ s) at h2
    simp only [tables]
    omega
  · have h1 := sum_replace (fun p => cnt (refs q) (tree w.mem p))
      (fun p => cnt (refs q) (tree m' p)) h.mem fun p' hp' hne => by rw [hothers p' hp' hne]
    have h2 := tally_modify (fun _ => 0) (refs q) φ h.sub
    rw [← htree] at h2
    change cnt (refs q) (tree m' p) + cnt (refs q) s = cnt (refs q) (tree w.mem p) + cnt (refs q) (φ s) at h2
    simp only [leaves]
    omega

end UserPath

/-- The new trees are well formed if the replaced table is. -/
theorem TableChange.ok {m m' : Mem} {k j : ℕ} {ix : ℕ → Fin 512} {s : PTree}
    {φ : PTree → PTree} (h : TableChange m m' live p ix k j s φ)
    (hok : ∀ p ∈ live, Ok okEntry (tree m p)) (hp : p ∈ live) (hφ : Ok okEntry (φ s))
    (hf : (φ s).frame = s.frame) : ∀ p' ∈ live, Ok okEntry (tree m' p') := by
  intro p' hp'
  by_cases hne : p' = p
  · rw [hne, h.tree_eq]
    exact ((hok p hp).modify h.at_root hφ hf).1
  · rw [h.others p' hp' hne]
    exact hok p' hp'

/-- Nothing a user can see changes: the leaf entries stay, and so do the bytes of every page in
use that is not a table. -/
structure Keeps (live : Finset ℕ) (w w' : World) : Prop where
  lookup : ∀ p ∈ live, ∀ va, lookup w'.mem p va = lookup w.mem p va
  leaves : ∀ q, leaves w'.mem live q = leaves w.mem live q
  data : ∀ q, isPageUsed w.pmm q = true → tables w.mem live q = 0 →
    isPageUsed w'.pmm q = true ∧ tables w'.mem live q = 0 ∧ ∀ x, x / 4096 = q → w'.mem x = w.mem x

theorem Keeps.refl (live : Finset ℕ) (w : World) : Keeps live w w :=
  ⟨fun _ _ _ => rfl, fun _ => rfl, fun _ h1 h2 => ⟨h1, h2, fun _ _ => rfl⟩⟩

theorem Keeps.trans {a b c : World} (h1 : Keeps live a b) (h2 : Keeps live b c) :
    Keeps live a c := by
  refine ⟨fun p hp va => (h2.lookup p hp va).trans (h1.lookup p hp va),
    fun q => (h2.leaves q).trans (h1.leaves q), fun q hu ht => ?_⟩
  obtain ⟨hu1, ht1, hx1⟩ := h1.data q hu ht
  obtain ⟨hu2, ht2, hx2⟩ := h2.data q hu1 ht1
  exact ⟨hu2, ht2, fun x hx => (hx2 x hx).trans (hx1 x hx)⟩

/-- What a write to the leaf slot for `va` does; `m` differs from the old memory outside the
tables only. -/
structure LeafWrite (m m' : Mem) (live : Finset ℕ) (p va : ℕ) (e e' : Entry) : Prop where
  ok : ∀ p' ∈ live, Ok okEntry (tree m' p')
  tables_eq : ∀ q, tables m' live q = tables m live q
  leaves_eq : ∀ q, leaves m' live q + refs q e = leaves m live q + refs q e'
  lookup_self : lookup m' p va = (some e').filter fun e => has e ptePresent
  lookup_other : va ≤ userLimit → ∀ p' ∈ live, ∀ va' ≤ userLimit,
    ¬ (p' = p ∧ va' / 4096 = va / 4096) → lookup m' p' va' = lookup m p' va'

/-- The leaf entry for `va` in the space `p` becomes `e'`; other leaf entries, and the data of
pages in use, stay. -/
structure PointUpdate (live : Finset ℕ) (w w' : World) (p va : ℕ) (e' : Entry) : Prop where
  lookup_self : lookup w'.mem p va = some e'
  lookup_other : va ≤ userLimit → ∀ p' ∈ live, ∀ va' ≤ userLimit,
    ¬ (p' = p ∧ va' / 4096 = va / 4096) → lookup w'.mem p' va' = lookup w.mem p' va'
  data : ∀ q, isPageUsed w.pmm q = true → tables w.mem live q = 0 →
    ∀ x, x / 4096 = q → w'.mem x = w.mem x

/-- The outcome of a fault that `handle_cow_fault` resolves. -/
structure Resolved (live : Finset ℕ) (w w' : World) (p va : ℕ) (e e' : Entry) : Prop where
  was : lookup w.mem p va = some e
  update : PointUpdate live w w' p va e'
  user : has e' pteUser = has e pteUser
  writable : has e' pteWritable = true
  bytes : ∀ off, off < 4096 → w'.mem (addrOf e' + off) = w.mem (addrOf e + off)
  alone : leaves w'.mem live (addrOf e' / 4096) = 1
  others : ∀ q, q ≠ addrOf e' / 4096 → leaves w.mem live q = 1 → leaves w'.mem live q = 1
  frame : addrOf e' / 4096 = addrOf e / 4096 ∧ leaves w.mem live (addrOf e / 4096) = 1 ∨
    leaves w.mem live (addrOf e' / 4096) = 0

/-! ### Allocating a table -/

namespace UserPath

variable {base : ℕ → Bool × ℕ} {w w' : World} {live : Finset ℕ} {p va k j : ℕ} {s : PTree}

/-- A fresh, zeroed table in frame `f'` is hooked into the empty slot of the table `s`. -/
theorem graft (h : UserPath base w live p va (k + 1) j s)
    (hP : has (rd w.mem s.frame (ix va (k + 1))) ptePresent = false) {f' : ℕ}
    (ha : Allocated w w' f') (hz : ∀ i, rd w'.mem f' i = 0) :
    let m' := setEntry w'.mem (s.frame * 4096) (ix va (k + 1)) (tableEntry (f' * 4096))
    let w' := { w' with mem := m' }
    ∃ s', s'.frame = f' ∧ UserPath base w' live p va k (j + 1) s' ∧ Keeps live w w' := by
  intro m' w''
  obtain ⟨ht0, hl0, hbase⟩ := h.free_of_unused ha.free
  have hsv := h.eq_view
  have hne : s.frame ≠ f' := Ne.symm (h.ne_frame ht0)
  have hbytes : ∀ x, x / 4096 ≠ s.frame → x / 4096 ≠ f' → m' x = w.mem x := fun x h1 h2 =>
    (setEntry_other _ _ (ix va (k + 1)).isLt h1).trans (ha.mem x h2)
  have hself : rd m' s.frame = update (rd w.mem s.frame) (ix va (k + 1)) (tableEntry (f' * 4096)) := by
    rw [rd_setEntry_self, ha.rd hne]
  have hzero : ∀ i, rd m' f' i = 0 := fun i => by
    rw [rd_set_ne (Ne.symm hne), hz i]
  have hrd : ∀ g, g ≠ s.frame → 0 < tables w.mem live g → rd m' g = rd w.mem g := fun g h1 h2 =>
    rd_congr fun x hx => hbytes x (by omega) (by rintro rfl; rw [hx] at ht0; omega)
  obtain ⟨hown, hcnt, hokN, hleafN⟩ := empty_table k (fun i _ => hzero i)
  set sub := view cls cap (rd m') k f' with hsub
  obtain ⟨kid, hkid⟩ : ∃ kid, s = .node s.frame kid := ⟨_, hsv⟩
  have hnil : kid (ix va (k + 1)) = .nil := by
    have : Trie.node s.frame kid = view cls cap (rd w.mem) (k + 1) s.frame := hkid.symm.trans hsv
    rw [view] at this
    rw [(Trie.node.inj this).2]
    dsimp only
    rw [if_pos (ix_cap h.half), kidOf_absent hP]
  set φ : PTree → PTree := setSlot (ix va (k + 1)) (.ptr (tableEntry (f' * 4096)) sub) with hφ
  have hc : TableChange w.mem m' live p (ix va) (k + 1) j s φ := by
    refine h.tableChange hrd ?_
    rw [view_setSlot (ix_cap h.half) hself ?_ ?_, kidOf_table ha.lt, ← hsv]
    · rw [← hsv]; exact (h.own_le _).trans (h.own_le_one h.mem _)
    · intro g hg hpos
      rw [← hsv] at hpos
      exact hrd g hg (hpos.trans_le (h.own_le_tables g))
  have hown' : ∀ q, own q (φ s) = own q s + if f' = q then 1 else 0 := fun q => by
    have h1 : own q (φ (.node s.frame kid)) + own q (kid (ix va (k + 1))) =
        own q (.node s.frame kid) + own q (.ptr (tableEntry (f' * 4096)) sub) := tally_setSlot _ _ _ _ _ _
    rw [← hkid, hnil, own_nil, own_ptr, hown] at h1
    exact h1
  have hcnt' : ∀ q, cnt (refs q) (φ s) = cnt (refs q) s := fun q => by
    have h1 : cnt (refs q) (φ (.node s.frame kid)) + cnt (refs q) (kid (ix va (k + 1))) =
        cnt (refs q) (.node s.frame kid) + cnt (refs q) (.ptr (tableEntry (f' * 4096)) sub) :=
      tally_setSlot _ _ _ _ _ _
    rw [← hkid, hnil, cnt_nil, cnt_ptr, hcnt] at h1
    exact h1
  have htables : ∀ q, tables m' live q = tables w.mem live q + if f' = q then 1 else 0 := fun q => by
    have h1 := hc.tables_eq q
    have h2 := hown' q
    omega
  have hleaves : ∀ q, leaves m' live q = leaves w.mem live q := fun q => by
    have h1 := hc.leaves_eq q
    have h2 := hcnt' q
    omega
  have hφs : φ s = .node s.frame (update kid (ix va (k + 1)) (.ptr (tableEntry (f' * 4096)) sub)) := by
    conv_lhs => rw [hkid]
    rfl
  have hsok := (h.ok p h.mem).subAt h.sub
  refine ⟨sub, by rw [hsub, view_frame], ⟨inv_iff_pages.2 ⟨h.root, ?_, fun q => ?_⟩, h.mem, h.half,
    by have := h.level; omega, ?_⟩, fun p' hp' va' => ?_, hleaves, fun q hu ht => ?_⟩
  · refine hc.ok h.ok h.mem (hsok.setSlot ⟨⟨?_, ?_⟩, hokN⟩) (by rw [hφs]; rfl)
    · rw [hsub, view_frame]; exact ha.lt
    · rw [hsub, view_frame]
  · change PageOk (pageState w'.pmm q) (base q) (tables m' live q) (leaves m' live q)
    rw [htables, hleaves, ha.pmm q]
    by_cases hq : q = f'
    · subst hq
      rw [if_pos rfl, if_pos rfl, ht0, hl0]
      exact .one hbase rfl
    · rw [if_neg hq, if_neg (Ne.symm hq), Nat.add_zero]
      exact h.page q
  · change subAt _ _ _ (tree m' p) = _
    rw [hc.tree_eq]
    have h1 := subAt_modify φ h.sub
    rw [hφs] at h1
    exact subAt_down (update_self _ _ _) h1
  · -- the new table maps nothing, and the other leaves stay where they are
    change (leafAt (ix va') 3 (tree m' p')).filter _ = (leafAt (ix va') 3 (tree w.mem p')).filter _
    by_cases hpp : p' = p
    · subst hpp
      rw [hc.tree_eq, ← h.level]
      by_cases hsame : SamePath (ix va) (ix va') (k + 1) j
      · rw [leafAt_modify_same φ h.sub hsame, leafAt_subAt h.sub hsame, hkid, hφ]
        by_cases hi : ix va' (k + 1) = ix va (k + 1)
        · rw [← hi, leafAt_setSlot_self, hleafN, leafAt, hi, hnil]
          rfl
        · rw [leafAt_setSlot_other hi]
      · rw [leafAt_modify_other φ h.sub hsame]
    · rw [hc.others p' hp' hpp]
  · have hqf := ha.ne_of_used hu
    refine ⟨ha.kept hu, ?_, fun x hx => hbytes x (by rw [hx]; exact h.ne_frame ht) (by omega)⟩
    change tables m' live q = 0
    rw [htables, if_neg (Ne.symm hqf), ht]

theorem ensureTable (h : UserPath base w live p va (k + 1) j s) {a : ℕ}
    (hcall : ensureTable (s.frame * 4096) (ix va (k + 1)) w = some (a, w')) :
    ∃ s', a = s'.frame * 4096 ∧ UserPath base w' live p va k (j + 1) s' ∧ Keeps live w w' := by
  obtain ⟨hP, rfl, rfl⟩ | ⟨hP, F, w₁, rfl, ha, hz, rfl⟩ := ensureTable_cases hcall
  · obtain ⟨hno, -⟩ | ⟨g, hg, he, hbelow⟩ := h.slot_cases
    · rw [hP] at hno
      cases hno
    · exact ⟨_, by rw [view_frame, he, (tableEntry_bits hg).2.2.2.2], hbelow, Keeps.refl _ _⟩
  · obtain ⟨s', hf', hbelow, hkeep⟩ := h.graft hP ha hz
    exact ⟨s', by rw [hf'], hbelow, hkeep⟩

/-! ### Writing a leaf entry -/

theorem leafAt_leaf (h : UserPath base w live p va 0 3 s) :
    leafAt (ix va) 3 (tree w.mem p) = some (rd w.mem s.frame (ix va 0)) := by
  have := leafAt_subAt h.sub (SamePath.refl (ix va) 0 3)
  rw [Nat.zero_add] at this
  rw [this]
  conv_lhs => rw [h.eq_view]
  rfl

theorem leafWrite (h : UserPath base w live p va 0 3 s) (e' : Entry) {m : Mem}
    (hm : ∀ x, 0 < tables w.mem live (x / 4096) → m x = w.mem x) :
    LeafWrite w.mem (setEntry m (s.frame * 4096) (ix va 0) e') live p va
      (rd w.mem s.frame (ix va 0)) e' := by
  set m' := setEntry m (s.frame * 4096) (ix va 0) e' with hm'
  have hsv := h.eq_view
  have hrd : ∀ g, g ≠ s.frame → 0 < tables w.mem live g → rd m' g = rd w.mem g := fun g h1 h2 => by
    rw [hm', rd_set_ne h1]
    exact rd_congr fun x hx => hm x (by rw [hx]; exact h2)
  have hself : rd m' s.frame = update (rd w.mem s.frame) (ix va 0) e' := by
    rw [hm', rd_setEntry_self, rd_congr fun x hx => hm x (by rw [hx]; exact h.tables_frame)]
  have hc : TableChange w.mem m' live p (ix va) 0 3 s (setLeaf (ix va 0) e') := by
    refine h.tableChange hrd ?_
    conv_rhs => rw [hsv]
    rw [view, hself]
    rfl
  have hleaf : s = .leaf s.frame (rd w.mem s.frame) := hsv
  refine ⟨hc.ok h.ok h.mem ?_ ?_, fun q => ?_, fun q => ?_, ?_, fun hlim p' hp' va' hva' hne => ?_⟩
  · rw [hleaf]; trivial
  · rw [hleaf]; rfl
  · have h1 := hc.tables_eq q
    rw [own_setLeaf] at h1
    omega
  · have h1 := hc.leaves_eq q
    have h2 := cnt_setLeaf (refs q) (ix va 0) e' s.frame (rd w.mem s.frame)
    rw [← hleaf] at h2
    omega
  · have h1 := leafAt_modify_same (setLeaf (ix va 0) e') h.sub (SamePath.refl (ix va) 0 3)
    rw [Nat.zero_add, ← hc.tree_eq, hleaf, setLeaf, leafAt, update_self] at h1
    rw [lookup, h1]
  · rw [lookup, lookup]
    by_cases hpp : p' = p
    · subst hpp
      have hne' : ¬ va' / 4096 = va / 4096 := fun hc => hne ⟨rfl, hc⟩
      congr 1
      rw [hc.tree_eq]
      by_cases hsame : SamePath (ix va) (ix va') 0 3
      · have h1 := leafAt_modify_same (setLeaf (ix va 0) e') h.sub hsame
        have h2 := leafAt_subAt h.sub hsame
        rw [Nat.zero_add] at h1 h2
        have hi : ix va' 0 ≠ ix va 0 := fun hi => hne' ((same_page_iff hlim hva').1 ⟨hsame, hi⟩)
        rw [h1, h2, hleaf, setLeaf, leafAt, leafAt, update_of_ne hi]
      · have h1 := leafAt_modify_other (setLeaf (ix va 0) e') h.sub hsame
        rwa [Nat.zero_add] at h1
    · rw [hc.others p' hp' hpp]

theorem splitIfHuge (h : UserPath base w live p va (k + 1) j s) (level : ℕ) :
    splitIfHuge (s.frame * 4096) (ix va (k + 1)) level w = some w := by
  unfold Vmm.splitIfHuge
  simp only [← rd.eq_def]
  rcases h.slot_cases with ⟨hP, -⟩ | ⟨g, hg, he, -⟩
  · simp [hP]
  · obtain ⟨-, hH, -, -, -⟩ := tableEntry_bits hg
    simp [he, hH]

end UserPath

namespace Inv

variable {base : ℕ → Bool × ℕ} {w w' : World} {live : Finset ℕ} {p va : ℕ}

/-- A frame that is allocated but not mapped yet counts as in use before. -/
theorem hold (h : Inv base w live) {f' : ℕ} (ha : Allocated w w' f') :
    Inv (update base f' (true, 1)) w' live ∧
      ∀ p' ∈ live, tree w'.mem p' = tree w.mem p' := by
  obtain ⟨ht0, hl0, hbase⟩ := h.free_of_unused ha.free
  refine h.congr (fun g hg => h.rd_allocated ha hg) (fun q hq => ?_) fun q => ?_
  · rw [update_of_ne (by rintro rfl; omega)]
    exact h.taken q hq
  · rw [ha.pmm q]
    by_cases hq : q = f'
    · subst hq
      rw [if_pos rfl, if_neg (by omega), update_self]
    · rw [if_neg hq, update_of_ne hq, h.pages q]

variable {flags : Flags}

/-- The walk of `map_page` down to the page table. -/
theorem mapPage_walk (h : Inv base w live) (hb : (base 0).1 = true) (hp : p ∈ live) (hva : pml4Idx va < 256)
    {a : ℕ} (hcall : mapPage va a flags p w = some w') :
    ∃ w₁ s, UserPath base w₁ live p va 0 3 s ∧ Keeps live w w₁ ∧
      w' = { w₁ with mem := setEntry w₁.mem (s.frame * 4096) (ix va 0) (leafEntry a flags) } := by
  have hf := h.frame hp
  have hp0 : p ≠ 0 := by
    rintro rfl
    have h1 := h.taken 0
      (Nat.lt_of_lt_of_le (own_root_pos) (le_trans (own_le_tables hp) (Nat.le_add_right _ _)))
    rw [hb] at h1
    exact Bool.noConfusion h1
  have hroot : (tree w.mem p).frame * 4096 = p := by rw [tree, view_frame, hf]
  unfold mapPage at hcall
  simp only [resolvePml4, if_pos hp0, if_neg hp0, pml4Idx_eq, pdptIdx_eq, pdIdx_eq, ptIdx_eq,
    Option.bind_eq_bind] at hcall
  obtain ⟨⟨a3, w1⟩, hc1, hcall⟩ := Option.bind_eq_some_iff.1 hcall
  rw [← hroot] at hc1
  obtain ⟨s2, rfl, h1, k1⟩ := (h.userPath hp hva).ensureTable hc1
  dsimp only at hcall
  rw [h1.splitIfHuge 1, Option.bind_some] at hcall
  obtain ⟨⟨a2, w2⟩, hc2, hcall⟩ := Option.bind_eq_some_iff.1 hcall
  obtain ⟨s1, rfl, h2, k2⟩ := h1.ensureTable hc2
  dsimp only at hcall
  rw [h2.splitIfHuge 2, Option.bind_some] at hcall
  obtain ⟨⟨a1, w3⟩, hc3, hcall⟩ := Option.bind_eq_some_iff.1 hcall
  obtain ⟨s0, rfl, h3, k3⟩ := h2.ensureTable hc3
  exact ⟨w3, s0, h3, k1.trans (k2.trans k3), (Option.some.inj hcall).symm⟩

/-- `map_page` of a fresh frame at an unmapped user address. -/
theorem mapFresh (h : Inv base w live) (hb : IsBase base) (hp : p ∈ live) (hva : va ≤ userLimit)
    (hun : lookup w.mem p va = none) {F : ℕ} {w₁ : World} (ha : Allocated w w₁ F)
    (hflags : flags.present = true) (hcall : mapPage va (F * 4096) flags p w₁ = some w') :
    Inv base w' live ∧ PointUpdate live w w' p va (leafEntry (F * 4096) flags) ∧
      (∀ x, x / 4096 = F → w'.mem x = w₁.mem x) ∧
      ∀ q, leaves w'.mem live q = leaves w.mem live q + if F = q then 1 else 0 := by
  obtain ⟨ht0, hl0, hbase⟩ := h.free_of_unused ha.free
  have hF : F ≠ 0 := by
    rintro rfl
    rw [hb.zero] at hbase
    exact Bool.noConfusion hbase
  obtain ⟨h1, htree⟩ := h.hold ha
  have hcounts := counts_same fun g hg => h.rd_allocated ha hg
  obtain ⟨w₂, s, h2, hk, rfl⟩ := h1.mapPage_walk
    (by rw [update_of_ne (Ne.symm hF)]; exact hb.zero) hp (pml4Idx_user hva) hcall
  have hbits := leafEntry_bits flags (lt_trans ha.lt (by decide : maxManagedPages < 2 ^ 40))
  set e' := leafEntry (F * 4096) flags with he'
  have hP' : has e' ptePresent = true := by rw [hbits.1, hflags]
  have hrefs' : ∀ q, refs q e' = if F = q then 1 else 0 := fun q => by
    rw [refs_present hP', hbits.2.2.2, Nat.mul_div_cancel _ (by decide)]
  have hlk : ∀ p' ∈ live, ∀ va', lookup w₂.mem p' va' = lookup w.mem p' va' := fun p' hp' va' => by
    rw [hk.lookup p' hp' va', lookup, htree p' hp', lookup]
  -- the slot was empty, so the write takes no reference away
  have habs : has (rd w₂.mem s.frame (ix va 0)) ptePresent = false := by
    have := hlk p hp va
    rw [hun, lookup, h2.leafAt_leaf] at this
    cases hc : has (rd w₂.mem s.frame (ix va 0)) ptePresent with
    | false => rfl
    | true => simp [hc] at this
  have hw := h2.leafWrite e' (fun _ _ => rfl)
  have hleaves : ∀ q, leaves (setEntry w₂.mem (s.frame * 4096) (ix va 0) e') live q =
      leaves w.mem live q + if F = q then 1 else 0 := fun q => by
    have h3 := hw.leaves_eq q
    rw [refs_absent habs, hk.leaves q, (hcounts q).2, hrefs' q] at h3
    omega
  -- pages in use other than tables, the new page included, keep their bytes
  have hdata : ∀ q, isPageUsed w₁.pmm q = true → tables w₁.mem live q = 0 → ∀ x, x / 4096 = q →
      setEntry w₂.mem (s.frame * 4096) (ix va 0) e' x = w₁.mem x := by
    intro q hu ht x hx
    obtain ⟨-, ht2, hx2⟩ := hk.data q hu ht
    rw [setEntry_other _ _ (ix va 0).isLt (by rw [hx]; exact h2.ne_frame ht2)]
    exact hx2 x hx
  have htF : tables w₂.mem live F = 0 :=
    (hk.data F ha.used (by rw [(hcounts F).1]; exact ht0)).2.1
  refine ⟨inv_iff_pages.2 ⟨h.root, hw.ok, fun q => ?_⟩,
    ⟨?_, fun hlim p' hp' va' hva' hne => ?_, fun q hu ht x hx => ?_⟩, ?_, hleaves⟩
  · have h3 := h2.page q
    rw [hk.leaves q, (hcounts q).2] at h3
    dsimp only
    rw [hw.tables_eq, hleaves]
    by_cases hqF : F = q
    · subst hqF
      rw [h3.state, htF, hl0, if_neg (by omega), update_self, if_pos rfl]
      exact .one hbase rfl
    · rwa [if_neg hqF, Nat.add_zero, ← update_of_ne (Ne.symm hqF) _ base]
  · rw [hw.lookup_self]
    simp [hP']
  · rw [hw.lookup_other hlim p' hp' va' hva' hne, hlk p' hp' va']
  · have hqF := ha.ne_of_used hu
    exact (hdata q (ha.kept hu) (by rw [(hcounts q).1]; exact ht) x hx).trans (ha.mem x (by omega))
  · exact hdata F ha.used (by rw [(hcounts F).1]; exact ht0)

/-! ### Copy-on-write faults -/

/-- In the user half the fault handler reaches the page table of the tree, or gives up. -/
theorem handleCowFault_cases (h : Inv base w live) (hb : IsBase base) (hp : p ∈ live)
    (hva : pml4Idx va < 256) (err : ℕ) :
    ((err &&& 0x7 ≠ 0x7 ∨ leafAt (ix va) 3 (tree w.mem p) = none) ∧
        handleCowFault va err p w = (false, w)) ∨
      ∃ s, UserPath base w live p va 0 3 s ∧
        handleCowFault va err p w = handleCowLeaf (s.frame * 4096) (ix va 0) w := by
  have hf := h.frame hp
  have hp0 : p ≠ 0 := fun hc => h.root_ne_zero hb hp (by rw [hc])
  unfold handleCowFault
  split_ifs with herr
  · exact .inl ⟨.inl (herr.resolve_right hp0), rfl⟩
  simp only [pml4Idx_eq, pdptIdx_eq, pdIdx_eq, ptIdx_eq]
  have hroot : ∀ i : Fin 512, entry w.mem p i = rd w.mem (tree w.mem p).frame i := fun i => by
    rw [rd, tree, view_frame, hf]
  rcases (h.userPath hp hva).slot_cases with ⟨hP, hno⟩ | ⟨g3, hg3, he, h2⟩
  · exact .inl ⟨.inr hno, by rw [hroot, hP]; rfl⟩
  obtain ⟨hP, -, -, -, hA⟩ := tableEntry_bits hg3
  simp only [hroot, he, hP, hA, Bool.not_true, Bool.false_eq_true, if_false, ← rd.eq_def]
  rcases h2.slot_cases with ⟨hP, hno⟩ | ⟨g2, hg2, he, h1⟩
  · exact .inl ⟨.inr hno, by rw [view_frame] at hP; rw [hP]; rfl⟩
  obtain ⟨hP, -, -, -, hA⟩ := tableEntry_bits hg2
  rw [view_frame] at he
  simp only [he, hP, hA, Bool.not_true, Bool.false_eq_true, if_false, ← rd.eq_def]
  rcases h1.slot_cases with ⟨hP, hno⟩ | ⟨g1, hg1, he, h0⟩
  · exact .inl ⟨.inr hno, by rw [view_frame] at hP; rw [hP]; rfl⟩
  obtain ⟨hP, hH, -, -, hA⟩ := tableEntry_bits hg1
  rw [view_frame] at he
  refine .inr ⟨_, h0, ?_⟩
  simp only [he, hP, hH, hA, Bool.not_true, Bool.false_eq_true, if_false, view_frame]

end Inv

theorem pageRefCount_eq {st : State} {e : Entry} (hlt : addrOf e / 4096 < maxManagedPages)
    (hu : isPageUsed st (addrOf e / 4096) = true) :
    pageRefCount (addrOf e) st = (pageState st (addrOf e / 4096)).2 := by
  have hmod : addrOf e % pageSize = 0 := addrOf_mod e
  have hdiv : addrOf e / pageSize = addrOf e / 4096 := rfl
  simp [pageRefCount, hmod, hdiv, pageIndexValid, hlt, hu, pageState]

namespace UserPath

variable {base : ℕ → Bool × ℕ} {w w' : World} {live : Finset ℕ} {p va : ℕ} {s : PTree}

/-- The copying branch: the mapped frame is shared and `N` is a fresh frame. -/
theorem copyLeafPage (h : UserPath base w live p va 0 3 s) (hb : IsBase base)
    (hP : has (rd w.mem s.frame (ix va 0)) ptePresent = true)
    (hshared : 1 < leaves w.mem live (addrOf (rd w.mem s.frame (ix va 0)) / 4096)) {N : ℕ} {st : State}
    (ha : Allocated w { w with pmm := st } N) :
    let e := rd w.mem s.frame (ix va 0)
    let w' : World :=
      { w with
        pmm := freePage (addrOf e) st
        mem := setEntry (copyPage (addrOf e) (N * 4096) w.mem) (s.frame * 4096) (ix va 0)
          (copiedEntry e (N * 4096)) }
    Inv base w' live ∧ ∃ e e', Resolved live w w' p va e e' := by
  intro e w'
  obtain ⟨htN, hlN, hbaseN⟩ := h.free_of_unused ha.free
  set O := addrOf e / 4096 with hO
  have haddr : addrOf e = O * 4096 := (addrOf_div_mul e).symm
  have hwas : lookup w.mem p va = some e := by
    rw [lookup, h.leafAt_leaf]
    simp [e, hP]
  have hrefO : ∀ q, refs q e = if O = q then 1 else 0 := fun q => refs_present hP q
  have htO : tables w.mem live O = 0 := by
    have := h.apart O
    omega
  have hOlt : O < maxManagedPages := h.managed hb (by omega)
  have hON : O ≠ N := by
    rintro hc
    rw [← hc] at hlN
    omega
  have hcopy : ∀ x, copyPage (addrOf e) (N * 4096) w.mem x =
      if x / 4096 = N then w.mem (O * 4096 + x % 4096) else w.mem x := fun x => by
    rw [haddr, copyPage_spec]
  obtain ⟨hbP, hbU, hbW, hbA⟩ := copiedEntry_bits e (lt_trans ha.lt (by decide : maxManagedPages < 2 ^ 40))
  set e' := copiedEntry e (N * 4096) with he'
  have hP' : has e' ptePresent = true := hbP.trans hP
  have hfr' : addrOf e' / 4096 = N := by rw [hbA]; exact Nat.mul_div_cancel _ (by decide)
  have hrefN : ∀ q, refs q e' = if N = q then 1 else 0 := fun q => by
    rw [refs_present hP', hfr']
  have hw := h.leafWrite e' (m := copyPage (addrOf e) (N * 4096) w.mem) fun x hx => by
    rw [hcopy, if_neg (by rintro hc; rw [hc] at hx; omega)]
  have hmem : ∀ x, x / 4096 ≠ s.frame → w'.mem x = copyPage (addrOf e) (N * 4096) w.mem x :=
    fun x hx => setEntry_other _ _ (ix va 0).isLt hx
  have hleaves : ∀ q, leaves w'.mem live q + (if O = q then 1 else 0) =
      leaves w.mem live q + if N = q then 1 else 0 := fun q => by
    rw [← hrefO, ← hrefN]
    exact hw.leaves_eq q
  have hlN' : leaves w'.mem live N = 1 := by
    have := hleaves N
    rw [if_neg hON, if_pos rfl] at this
    omega
  refine ⟨inv_iff_pages.2 ⟨h.root, hw.ok, fun q => ?_⟩, e, e', hwas,
    ⟨?_, hw.lookup_other, fun q hu ht x hx => ?_⟩, hbU, hbW,
    fun off hoff => ?_, by rw [hfr']; exact hlN', fun q hqN hq => ?_, .inr (by rw [hfr']; exact hlN)⟩
  · have hfree := pageState_freePage st hOlt q
    rw [← haddr] at hfree
    have hst := ha.pmm q
    dsimp only at hst
    have h1 := hleaves q
    rw [hw.tables_eq]
    change PageOk (pageState (freePage (addrOf e) st) q) _ _ _
    rw [hfree, hst]
    by_cases hqN : q = N
    · subst hqN
      rw [if_pos rfl, if_neg hON, htN, hlN']
      exact .one hbaseN rfl
    · rw [if_neg hqN]
      rw [if_neg (Ne.symm hqN)] at h1
      by_cases hqO : O = q
      · subst hqO
        rw [if_pos rfl] at h1
        rw [if_pos rfl, h.pages O, if_pos (by omega), htO, Nat.zero_add]
        refine ⟨by omega, by omega, fun _ => h.taken O (by omega), ?_⟩
        change releaseState (true, leaves w.mem live O) = _
        rw [releaseState, if_pos hshared, if_pos (by omega)]
        exact congrArg (Prod.mk true) (by omega)
      · rw [if_neg hqO] at h1 ⊢
        rw [show leaves w'.mem live q = leaves w.mem live q by omega]
        exact h.page q
  · rw [hw.lookup_self]; simp [hP']
  · rw [hmem x (by rw [hx]; exact h.ne_frame ht), hcopy, if_neg (by rw [hx]; exact ha.ne_of_used hu)]
  · have hx : (addrOf e' + off) / 4096 = N := by rw [hbA]; omega
    have hmod : (addrOf e' + off) % 4096 = off := by rw [hbA]; omega
    rw [hmem _ (by rw [hx]; exact h.ne_frame htN), hcopy, if_pos hx, hmod, ← haddr]
  · rw [hfr'] at hqN
    have h1 := hleaves q
    rw [if_neg (Ne.symm hqN), if_neg (show ¬ O = q by rintro rfl; omega)] at h1
    omega

theorem handleCowLeaf (h : UserPath base w live p va 0 3 s) (hb : IsBase base) {b : Bool}
    (hcall : handleCowLeaf (s.frame * 4096) (ix va 0) w = (b, w')) :
    (b = false ∧ w' = w ∧
      (has (rd w.mem s.frame (ix va 0)) ptePresent = false ∨
        has (rd w.mem s.frame (ix va 0)) pteCow = false ∨
        (allocPage w.pmm).1 = invalidPhysicalAddress)) ∨
      (b = true ∧ Inv base w' live ∧ ∃ e e', Resolved live w w' p va e e') := by
  unfold Vmm.handleCowLeaf at hcall
  simp only [← rd.eq_def] at hcall
  set e := rd w.mem s.frame (ix va 0) with he
  by_cases hpc : has e ptePresent = true ∧ has e pteCow = true
  swap
  · have hpc' : has e ptePresent = false ∨ has e pteCow = false := by
      rw [not_and_or] at hpc
      simpa using hpc
    rw [if_pos (by simpa using hpc')] at hcall
    exact .inl ⟨(Prod.mk.inj hcall).1.symm, (Prod.mk.inj hcall).2.symm, hpc'.imp_right .inl⟩
  obtain ⟨hP, hC⟩ := hpc
  rw [if_neg (by simp [hP, hC])] at hcall
  have hwas : lookup w.mem p va = some e := by
    rw [lookup, h.leafAt_leaf, ← he]
    simp [hP]
  set O := addrOf e / 4096 with hO
  have hrefO : ∀ q, refs q e = if O = q then 1 else 0 := fun q => refs_present hP q
  have hlO : 0 < leaves w.mem live O := by
    have h1 : refs O e ≤ cnt (refs O) (tree w.mem p) := leafAt_le (refs O) h.leafAt_leaf
    have h2 : cnt (refs O) (tree w.mem p) ≤ leaves w.mem live O := cnt_le_leaves h.mem
    rw [hrefO, if_pos rfl] at h1
    omega
  have htO : tables w.mem live O = 0 := by
    have := h.apart O
    omega
  have hOlt : O < maxManagedPages := h.managed hb (by omega)
  have hOused : isPageUsed w.pmm O = true := (h.used_iff O).2 (.inl (by omega))
  have hrc : pageRefCount (addrOf e) w.pmm = leaves w.mem live O := by
    rw [pageRefCount_eq hOlt hOused, ← hO, h.pages O, if_pos (by omega), htO, Nat.zero_add]
  rw [hrc] at hcall
  by_cases hone : leaves w.mem live O ≤ 1
  · -- the only mapping: the entry becomes writable in place
    rw [if_pos hone] at hcall
    cases hcall
    obtain ⟨hbP, hbU, hbW, hbA⟩ := makeOwned_bits e
    have hw := h.leafWrite (makeOwned e) (fun _ _ => rfl)
    have hrefs : ∀ q, refs q (makeOwned e) = refs q e := fun q => by rw [refs, hbP, hbA, refs]
    have hleaves : ∀ q, leaves (setEntry w.mem (s.frame * 4096) (ix va 0) (makeOwned e)) live q =
        leaves w.mem live q := fun q => by
      have h1 := hw.leaves_eq q
      rw [← he, hrefs q] at h1
      omega
    have hbytes : ∀ x, x / 4096 ≠ s.frame →
        setEntry w.mem (s.frame * 4096) (ix va 0) (makeOwned e) x = w.mem x :=
      fun x hx => setEntry_other _ _ (ix va 0).isLt hx
    have hOs : O ≠ s.frame := h.ne_frame htO
    refine .inr ⟨rfl, inv_iff_pages.2 ⟨h.root, hw.ok, fun q => ?_⟩, e, makeOwned e, hwas, ⟨?_, hw.lookup_other, fun q hu ht x hx => hbytes x (by rw [hx]; exact h.ne_frame ht)⟩, hbU, hbW,
      fun off hoff => ?_, ?_, fun q _ hq => ?_, .inl ⟨by rw [hbA], le_antisymm hone hlO⟩⟩
    · rw [← makeOwned, hw.tables_eq, hleaves]; exact h.page q
    · rw [← makeOwned, hw.lookup_self]; simp [hbP, hP]
    · rw [hbA]
      refine hbytes _ ?_
      have := addrOf_mod e
      omega
    · rw [hbA, ← hO, ← makeOwned, hleaves]; omega
    · rw [← makeOwned, hleaves]; exact hq
  · -- a shared page: copy it and give up one reference
    rw [if_neg hone] at hcall
    cases halloc : allocPage w.pmm with
    | mk a st =>
      simp only [halloc] at hcall
      by_cases hinv : a = invalidPhysicalAddress
      · rw [if_pos hinv] at hcall
        rw [hinv] at halloc
        obtain rfl : st = w.pmm := allocPages_fail halloc
        exact .inl ⟨(Prod.mk.inj hcall).1.symm, (Prod.mk.inj hcall).2.symm, .inr (.inr hinv)⟩
      rw [if_neg hinv] at hcall
      cases hcall
      obtain ⟨N, rfl, ha⟩ := allocated halloc hinv
      exact .inr ⟨rfl, h.copyLeafPage hb hP (not_le.1 hone) ha⟩

end UserPath

end Tori.Vmm
