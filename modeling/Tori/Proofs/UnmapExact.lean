import Tori.Proofs.MapExact

/-! `unmap_page` is exact where its walk meets no huge entry, or stops before its store. Through a huge entry its store
either misses the tables of the tree, or cuts off an address or a table. -/

namespace Tori.Vmm

open Loop Pmm RadixWalk Function

variable {w₀ w w' : World} {r va k g g' : ℕ} {m : Mem}

variable {f g3 g2 g1 : ℕ} {i : Fin 512} {m' : Mem}

theorem pageState_freePage_self {st : State} {p : ℕ} (hp : p < maxManagedPages) (hused : isPageUsed st p = true) :
    pageState (freePage (p * 4096) st) p ≠ pageState st p := by
  have hstate : pageState st p = (true, st.pageRefcounts p) := by rw [pageState, hused]
  rw [pageState_freePage st hp p, if_pos rfl, iterate_one, hstate, releaseState]
  split_ifs with hr
  · intro heq
    have := congrArg Prod.snd heq
    dsimp only at this
    omega
  · exact fun heq => absurd (congrArg Prod.fst heq) Bool.false_ne_true

/-! ### Without huge entries -/

/-- What holds after each store of `unmap_page`. -/
structure Progress (r va : ℕ) (w₀ w : World) : Prop where
  tree : PageTables r w.mem
  others : ∀ va', pageOf va' ≠ pageOf va → access w.mem (r * 4096) va' = access w₀.mem (r * 4096) va'
  writes : ∀ x, w.mem x ≠ w₀.mem x → TableOf r w₀.mem (x / 4096)
  frees : ∀ f, pageState w.pmm f ≠ pageState w₀.pmm f →
    f ≠ r ∧ TableOf r w₀.mem f ∧ ∀ i, has (rd w.mem f i) ptePresent = false
  tables : ∀ f, TableOf r w.mem f ↔ TableOf r w₀.mem f ∧ pageState w.pmm f = pageState w₀.pmm f
  absent : has (ending w.mem r va).2.2 ptePresent = false

theorem Progress.exact (h : Progress r va w₀ w) : ExactUnmap r va w₀ w := by
  refine ⟨h.others, h.writes, h.frees, h.tables, ?_⟩
  rw [smallEntry_eq h.tree.top, if_neg]
  rintro ⟨-, hp⟩
  rw [h.absent] at hp
  cases hp

theorem setEntry_changes {x : ℕ} {e : Entry} (h : setEntry m (f * 4096) i e x ≠ m x) : x / 4096 = f := by
  by_contra hx
  exact h (setEntry_other m e i.isLt hx)

theorem progress_leaf (h : PageTables r w.mem) (hg : tableAt nextTable (rd w.mem) (ix va) 0 3 r = some g) :
    Progress r va w { w with mem := setEntry w.mem (g * 4096) (ix va 0) 0 } := by
  have hstore := h.slotStore hg 0
  have htree := h.dead hstore (.inl rfl)
  refine ⟨htree, fun va' hpage => ?_, fun x hx => ?_, fun f hf => absurd rfl hf, fun f => ?_, ?_⟩
  · rw [access_eq htree.top, access_eq h.top]
    unfold ending
    rw [hstore.descend_away (h.off_page hg hpage)]
  · rw [setEntry_changes hx]
    exact ⟨_, _, hg⟩
  · rw [and_iff_left rfl]
    exact exists_congr fun jx => exists_congr fun l => by rw [hstore.tableAt_leaf]
  · obtain ⟨p, -, hp⟩ := hstore.descend_dead (.inl rfl) hg rfl Rights.pass (true, true, false)
    unfold ending
    rw [hp]
    exact absent_zero

/-- One clean-up: the table on the path is kept, or it is empty, given back and unhooked. -/
theorem Progress.cleanup (h : Progress r va w₀ w) (hheld : Held r w₀)
    (hg : tableAt nextTable (rd w.mem) (ix va) k 3 r = some g)
    (hg' : tableAt nextTable (rd w.mem) (ix va) (k + 1) 3 r = some g') (level : ℕ) (hlevel : level ≠ 0) :
    Progress r va w₀ (cleanupEntry (g * 4096) level (g' * 4096) (ix va (k + 1)) w) ∧
      ∀ l, k + 1 ≤ l → tableAt nextTable (rd (cleanupEntry (g * 4096) level (g' * 4096) (ix va (k + 1)) w).mem) (ix va) l 3 r =
        tableAt nextTable (rd w.mem) (ix va) l 3 r := by
  rcases cleanupEntry_eq (ix va (k + 1)) hlevel w with ⟨heq, -⟩ | ⟨heq, hempty⟩
  · rw [heq]
    exact ⟨h, fun _ _ => rfl⟩
  · rw [heq]
    have hold : nextTable (rd w.mem g' (ix va (k + 1))) = some g := (tableAt_down hg').symm.trans hg
    have hdead : nextTable (0 : Entry) = none := nextTable_absent absent_zero
    have hbare : k ≠ 0 → ∀ j, nextTable (rd w.mem g j) = none := fun _ j => nextTable_absent (table_empty hempty j)
    have hstore := h.tree.slotStore hg' 0
    have htree := h.tree.dead hstore (.inr absent_zero)
    have hprune : ∀ {f}, TableOf r (setEntry w.mem (g' * 4096) (ix va (k + 1)) 0) f ↔ TableOf r w.mem f ∧ f ≠ g :=
      hstore.isTable_prune hdead hold hbare
    have hself : tableAt nextTable (rd w.mem) (ix va) 3 3 r = some r := tableAt_self 3 r
    have hrg : g ≠ r := (h.tree.unshared.above hg hself (tableAt_le hg')).symm
    have hgg' : g' ≠ g := h.tree.unshared.above hg hg' (Nat.lt_succ_self k)
    obtain ⟨htable, hsame⟩ := (h.tables g).mp ⟨_, _, hg⟩
    obtain ⟨hlt, hused₀⟩ := hheld g htable hrg
    have hused : isPageUsed w.pmm g = true := (pageState_ext hsame).1.trans hused₀
    have hself := pageState_freePage_self hlt hused
    refine ⟨⟨htree, fun va' hpage => ?_, fun x hx => ?_, fun f hf => ?_, fun f => ?_, ?_⟩,
      fun l hl => hstore.tableAt_above hg' hl⟩
    · rw [← h.others va' hpage, access_eq htree.top, access_eq h.tree.top]
      unfold ending
      by_cases hon : tableAt nextTable (rd w.mem) (ix va') (k + 1) 3 r = some g' ∧ ix va' (k + 1) = ix va (k + 1)
      · obtain ⟨p₁, p₂, h₁, h₂⟩ := hstore.descend_prune hdead hold hbare hon.1 hon.2 Rights.pass (true, true, false)
        rw [h₁, h₂, finish_absent absent_zero, finish_absent (table_empty hempty _)]
      · rw [hstore.descend_away hon]
    · by_cases hx' : w.mem x = w₀.mem x
      · dsimp only at hx
        rw [← hx'] at hx
        rw [setEntry_changes hx]
        exact ((h.tables g').mp ⟨_, _, hg'⟩).1
      · exact h.writes x hx'
    · by_cases hfg : f = g
      · subst hfg
        refine ⟨hrg, htable, fun i => ?_⟩
        rw [rd_set_ne (Ne.symm hgg')]
        exact table_empty hempty i
      · dsimp only at hf
        rw [pageState_freePage_ne hfg] at hf
        obtain ⟨hfr, hft, habs⟩ := h.frees f hf
        refine ⟨hfr, hft, fun i => ?_⟩
        have hne : f ≠ g' := fun heq => hf ((h.tables f).mp (heq ▸ ⟨_, _, hg'⟩)).2
        rw [rd_set_ne hne]
        exact habs i
    · rw [hprune, h.tables f, and_assoc]
      refine and_congr_right fun _ => ?_
      by_cases hfg : f = g
      · subst hfg
        exact iff_of_false (fun hc => hc.2 rfl) fun hc => hself (hc.trans hsame.symm)
      · dsimp only
        rw [pageState_freePage_ne hfg]
        exact and_iff_left hfg
    · obtain ⟨p₁, p₂, -, h₂⟩ := hstore.descend_prune hdead hold hbare hg' rfl Rights.pass (true, true, false)
      unfold ending
      rw [h₂]
      exact absent_zero

variable {w₁ w₂ w₃ w₄ : World} {l pml4 : ℕ}

/-- The stores along a path without huge entries. -/
theorem exact_of_path (h : PageTables r w.mem) (hheld : Held r w)
    (h3 : tableAt nextTable (rd w.mem) (ix va) 2 3 r = some g3) (h2 : tableAt nextTable (rd w.mem) (ix va) 1 3 r = some g2)
    (h1 : tableAt nextTable (rd w.mem) (ix va) 0 3 r = some g1) (hs : Stores r va g3 g2 g1 w w₁ w₂ w₃ w₄) :
    ExactUnmap r va w w₄ := by
  obtain ⟨rfl, hw₂, hw₃, hw₄⟩ := hs
  have hkeep₁ := (h.slotStore h1 0).tableAt_leaf (ix va)
  have hp₁ := progress_leaf h h1
  obtain ⟨hp₂, hkeep₂⟩ := hp₁.cleanup hheld ((hkeep₁ 0).trans h1) ((hkeep₁ 1).trans h2) 1 (by decide)
  rw [← hw₂] at hp₂ hkeep₂
  have h2' := ((hkeep₂ 1 le_rfl).trans (hkeep₁ 1)).trans h2
  have h3' := ((hkeep₂ 2 (by decide)).trans (hkeep₁ 2)).trans h3
  obtain ⟨hp₃, hkeep₃⟩ := hp₂.cleanup hheld h2' h3' 2 (by decide)
  rw [← hw₃] at hp₃ hkeep₃
  obtain ⟨hp₄, -⟩ := hp₃.cleanup hheld ((hkeep₃ 2 le_rfl).trans h3') (tableAt_self 3 r) 3 (by decide)
  rw [← hw₄] at hp₄
  exact hp₄.exact

/-! ### Through a huge entry -/

/-- Entries of `m` are cleared, and nothing else changes. -/
def Fewer (m m' : Mem) : Prop := ∀ f i, rd m' f i = rd m f i ∨ rd m' f i = 0

theorem Fewer.trans {m₁ m₂ m₃ : Mem} (h : Fewer m₁ m₂) (h' : Fewer m₂ m₃) : Fewer m₁ m₃ := by
  intro f i
  rcases h' f i with heq | hzero
  · rw [heq]
    exact h f i
  · exact .inr hzero

theorem Fewer.zero (h : Fewer m m') (h0 : rd m f i = 0) : rd m' f i = 0 := by
  rcases h f i with heq | hzero
  · exact heq.trans h0
  · exact hzero

theorem Fewer.absent (h : Fewer m m') (h0 : has (rd m f i) ptePresent = false) :
    has (rd m' f i) ptePresent = false := by
  rcases h f i with heq | hzero
  · rw [heq, h0]
  · rw [hzero, absent_zero]

theorem fewer_setEntry (m : Mem) (f : ℕ) (i : Fin 512) : Fewer m (setEntry m (f * 4096) i 0) := by
  intro f' j
  by_cases hf : f' = f
  · subst hf
    rw [rd_setEntry_self]
    by_cases hj : j = i
    · rw [hj, update_self]
      exact .inr rfl
    · rw [update_of_ne hj]
      exact .inl rfl
  · rw [rd_set_ne hf]
    exact .inl rfl

/-- A clean-up clears entries; the page it may give back is empty, and its slot is then cleared. -/
theorem cleanupEntry_effect (g f level : ℕ) (i : Fin 512) (hlevel : level ≠ 0) (w : World) :
    Fewer w.mem (cleanupEntry (g * 4096) level (f * 4096) i w).mem ∧
      ∀ q, pageState (cleanupEntry (g * 4096) level (f * 4096) i w).pmm q ≠ pageState w.pmm q →
        q = g ∧ (∀ j, has (rd w.mem g j) ptePresent = false) ∧
          rd (cleanupEntry (g * 4096) level (f * 4096) i w).mem f i = 0 := by
  rcases cleanupEntry_eq i hlevel w with ⟨heq, -⟩ | ⟨heq, hempty⟩
  · rw [heq]
    exact ⟨fun _ _ => .inl rfl, fun q hq => absurd rfl hq⟩
  · rw [heq]
    refine ⟨fewer_setEntry _ _ _, fun q hq => ?_⟩
    by_cases hqg : q = g
    · refine ⟨hqg, table_empty hempty, ?_⟩
      dsimp only
      rw [rd_setEntry_self, update_self]
    · exact absurd (pageState_freePage_ne hqg) hq

/-- What the stores of `unmap_page` do, whatever they hit. -/
theorem Stores.effect (hs : Stores r va g3 g2 g1 w w₁ w₂ w₃ w₄) : Fewer w.mem w₄.mem ∧ rd w₄.mem g1 (ix va 0) = 0 ∧
      ∀ q, pageState w₄.pmm q ≠ pageState w.pmm q → q = g1 ∨
        (q = g2 ∨ q = g3) ∧ has (rd w₄.mem g3 (ix va 2)) ptePresent = false := by
  obtain ⟨hw₁, hw₂, hw₃, hw₄⟩ := hs
  obtain ⟨hf₂, hs₂⟩ := cleanupEntry_effect g1 g2 1 (ix va 1) (by decide) w₁
  obtain ⟨hf₃, hs₃⟩ := cleanupEntry_effect g2 g3 2 (ix va 2) (by decide) w₂
  obtain ⟨hf₄, hs₄⟩ := cleanupEntry_effect g3 r 3 (ix va 3) (by decide) w₃
  rw [← hw₂] at hf₂ hs₂
  rw [← hw₃] at hf₃ hs₃
  rw [← hw₄] at hf₄ hs₄
  have hf₁ : Fewer w.mem w₁.mem := hw₁ ▸ fewer_setEntry _ _ _
  have hslot : rd w₁.mem g1 (ix va 0) = 0 := by
    rw [hw₁]
    dsimp only
    rw [rd_setEntry_self, update_self]
  have hpmm₁ : w₁.pmm = w.pmm := by rw [hw₁]
  refine ⟨((hf₁.trans hf₂).trans hf₃).trans hf₄, ((hf₂.trans hf₃).trans hf₄).zero hslot, fun q hq => ?_⟩
  by_cases h₄ : pageState w₄.pmm q = pageState w₃.pmm q
  · by_cases h₃ : pageState w₃.pmm q = pageState w₂.pmm q
    · by_cases h₂ : pageState w₂.pmm q = pageState w₁.pmm q
      · rw [hpmm₁] at h₂
        exact absurd (h₄.trans (h₃.trans h₂)) hq
      · exact .inl (hs₂ q h₂).1
    · obtain ⟨hq2, -, hzero⟩ := hs₃ q h₃
      refine .inr ⟨.inl hq2, hf₄.absent ?_⟩
      rw [hzero, absent_zero]
  · obtain ⟨hq3, habs, -⟩ := hs₄ q h₄
    exact .inr ⟨.inr hq3, hf₄.absent (habs _)⟩

theorem Fewer.top (h : Fewer m m') (htop : SmallTop m r) : SmallTop m' r := by
  intro i hi
  rcases h r i with heq | hzero
  · rw [heq] at hi ⊢
    exact htop i hi
  · rw [hzero, absent_zero] at hi
    cases hi

/-- An address whose walk came by a slot that is cleared has lost its translation. -/
theorem Fewer.cut (h : Fewer m m') (htop : SmallTop m r)
    (hl : tableAt nextTable (rd m) (ix va) l 3 r = some g) (hzero : rd m' g (ix va l) = 0) :
    access m' (r * 4096) va = none := by
  have hlast : (ending m' r va).2.2 = 0 := descend_cut (nextTable_absent absent_zero) h hl hzero
  rw [access_eq (h.top htop), finish, hlast, absent_zero]
  rfl

theorem ending_last (m : Mem) (r va : ℕ) : ∃ g, tableAt nextTable (rd m) (ix va) (ending m r va).2.1 3 r = some g ∧
    (ending m r va).2.2 = rd m g (ix va (ending m r va).2.1) ∧
    ((ending m r va).2.1 = 0 ∨ nextTable (ending m r va).2.2 = none) := descend_last 3 r _

/-- Next to a page that a huge entry maps lies another one. -/
theorem exists_neighbour (hend : 1 ≤ (ending m r va).2.1) :
    ∃ va', pageOf va' ≠ pageOf va ∧ (∀ l, 1 ≤ l → l ≤ 3 → ix va' l = ix va l) ∧ ending m r va' = ending m r va := by
  obtain ⟨i, hi⟩ : ∃ i : Fin 512, i ≠ ix va 0 := exists_ne _
  obtain ⟨va', hva'⟩ := exists_va (update (ix va) 0 i)
  have hsame : ∀ l, 1 ≤ l → l ≤ 3 → ix va' l = ix va l := fun l h1 h3 =>
    (hva' l h3).trans (update_of_ne (by omega) _ _)
  refine ⟨va', fun hpage => ?_, hsame, ?_⟩
  · have h0 := (hva' 0 (by decide)).symm.trans (pageOf_eq_iff.mp hpage 0 (by decide))
    rw [update_self] at h0
    exact hi h0
  · refine descend_congr fun l g hl => ?_
    rcases Nat.eq_zero_or_pos l with rfl | hpos
    · obtain ⟨g', hg', hlast, hstop⟩ := ending_last m r va
      have hnext : nextTable (rd m g' (ix va (ending m r va).2.1)) = none := by
        rw [← hlast]
        exact hstop.resolve_left (Nat.ne_of_gt hend)
      rw [tableAt_below_none hg' hnext hend] at hl
      cases hl
    · rw [hsame l hpos (tableAt_le hl)]

section

variable (hex : ExactUnmap r va w w') (htree : PageTables r w.mem) (hfewer : Fewer w.mem w'.mem)
  (hend : 1 ≤ (ending w.mem r va).2.1)
include hex htree hfewer hend

/-- The path of a page that a huge entry maps is not cut. -/
theorem ExactUnmap.path_kept (hmapped : (finish va (ending w.mem r va)).isSome = true) (hl : 1 ≤ l)
    (hg : tableAt nextTable (rd w.mem) (ix va) l 3 r = some g) : rd w'.mem g (ix va l) ≠ 0 := by
  intro hzero
  obtain ⟨va', hpage, hsame, hending⟩ := exists_neighbour hend
  have hix := hsame l hl (tableAt_le hg)
  have hg' : tableAt nextTable (rd w.mem) (ix va') l 3 r = some g :=
    (tableAt_path fun l' hl' hd => hsame l' (by omega) hd).trans hg
  have hcut := hfewer.cut htree.top hg' (hix ▸ hzero)
  rw [hex.others va' hpage, access_eq htree.top, hending] at hcut
  have hsome : (finish va' (ending w.mem r va)).isSome = true := by
    unfold finish at hmapped ⊢
    split_ifs at hmapped ⊢
    · rfl
    · exact hmapped
  rw [hcut] at hsome
  cases hsome

/-- An entry of the tree that is present maps an address or leads to a table. -/
theorem ExactUnmap.slot_kept (htable : TableOf r w.mem g)
    (hpresent : has (rd w.mem g i) ptePresent = true) (hzero : rd w'.mem g i = 0) :
    ∃ f, f ≠ g ∧ pageState w'.pmm f ≠ pageState w.pmm f := by
  obtain ⟨jx, k, hg⟩ := htable
  -- the path that reads the slot, and with a level to spare an index that differs from that of `va`
  obtain ⟨i₀, hi₀⟩ : ∃ i : Fin 512, i ≠ ix va 0 := exists_ne _
  obtain ⟨va', hva'⟩ := exists_va (update (update jx 0 i₀) k i)
  have hk := tableAt_le hg
  have hi : ix va' k = i := (hva' k hk).trans (update_self _ _ _)
  have habove : ∀ l, k < l → l ≤ 3 → ix va' l = jx l := fun l hl hd => by
    rw [hva' l hd, update_of_ne (by omega), update_of_ne (by omega)]
  have hg' : tableAt nextTable (rd w.mem) (ix va') k 3 r = some g := (tableAt_path habove).trans hg
  by_cases hstop : k = 0 ∨ nextTable (rd w.mem g i) = none
  · have hends : (ending w.mem r va').2 = (k, rd w.mem g i) := hi ▸ descend_eq hg' (hi.symm ▸ hstop)
    have hpage : pageOf va' ≠ pageOf va := by
      intro hpage
      have hix := pageOf_eq_iff.mp hpage
      by_cases hk0 : k = 0
      · have hsame : ending w.mem r va' = ending w.mem r va :=
          descend_congr fun l g hl => by rw [hix l (tableAt_le hl)]
        rw [← hsame, hends] at hend
        exact absurd hk0 (Nat.ne_of_gt hend)
      · have h0 := (hva' 0 (by decide)).symm.trans (hix 0 (by decide))
        rw [update_of_ne (Ne.symm hk0), update_self] at h0
        exact hi₀ h0
    have hcut := hfewer.cut htree.top hg' (hi.symm ▸ hzero)
    rw [hex.others va' hpage, access_eq htree.top, finish, hends, hpresent] at hcut
    have hmaps : (k == 0 || has (rd w.mem g i) pteHuge) = true := by
      rcases hstop with rfl | hnone
      · rfl
      · rw [nextTable, hpresent] at hnone
        cases hhuge : has (rd w.mem g i) pteHuge with
        | true => exact Bool.or_true _
        | false =>
          rw [hhuge] at hnone
          cases hnone
    rw [show (true && (k == 0 || has (rd w.mem g i) pteHuge)) = true from hmaps] at hcut
    cases hcut
  · rw [not_or] at hstop
    obtain ⟨l, rfl⟩ := Nat.exists_eq_succ_of_ne_zero hstop.1
    obtain ⟨f, hf⟩ := Option.ne_none_iff_exists'.mp hstop.2
    have hl : tableAt nextTable (rd w.mem) (ix va') l 3 r = some f := by rw [tableAt_down hg', hi, hf]
    refine ⟨f, (htree.unshared.above hl hg' (Nat.lt_succ_self l)).symm, fun hsame => ?_⟩
    obtain ⟨jx', l', hl'⟩ := (hex.tables f).mpr ⟨⟨_, _, hl⟩, hsame⟩
    have hfew : ∀ g j, rd w'.mem g j = rd w.mem g j ∨ nextTable (rd w'.mem g j) = none := fun g j =>
      (hfewer g j).imp_right fun h0 => by rw [h0, nextTable_absent absent_zero]
    -- the old path to `f` is the only one, and its slot is cleared
    obtain ⟨rfl, hpath⟩ := htree.unshared _ jx' l l' f hl (tableAt_fewer hfew hl')
    obtain ⟨g₁, hg₁⟩ := tableAt_up hl' (Nat.le_succ l) hk
    have hold : g₁ = g := by
      have h := tableAt_fewer hfew hg₁
      rw [(tableAt_path fun m hm hd => hpath m (by omega) hd).trans hg'] at h
      exact (Option.some.inj h).symm
    subst hold
    rw [tableAt_down hg₁, hpath (l + 1) (Nat.lt_succ_self l) hk, hi, hzero, nextTable_absent absent_zero] at hl'
    cases hl'

end

/-- The store through a huge entry is never exact. -/
theorem stray_inexact (htree : PageTables r w.mem) (hfewer : Fewer w.mem w'.mem)
    (hzero : rd w'.mem g1 (ix va 0) = 0) (hpresent : has (rd w.mem g1 (ix va 0)) ptePresent = true)
    (hfreed : ∀ q, pageState w'.pmm q ≠ pageState w.pmm q → q = g1 ∨
      (q = g2 ∨ q = g3) ∧ has (rd w'.mem g3 (ix va 2)) ptePresent = false)
    (h3 : tableAt nextTable (rd w.mem) (ix va) 2 3 r = some g3) (hp3 : has (rd w.mem g3 (ix va 2)) ptePresent = true)
    (hl : tableAt nextTable (rd w.mem) (ix va) (l + 1) 3 r = some g) (hp : has (rd w.mem g (ix va (l + 1))) ptePresent = true)
    (hh : has (rd w.mem g (ix va (l + 1))) pteHuge = true) : ¬ExactUnmap r va w w' := by
  intro hex
  have hlast : (ending w.mem r va).2 = (l + 1, rd w.mem g (ix va (l + 1))) := descend_eq hl (.inr (nextTable_huge hh))
  have hend : 1 ≤ (ending w.mem r va).2.1 := by
    rw [hlast]
    exact Nat.succ_pos l
  have hmapped : (finish va (ending w.mem r va)).isSome = true := by
    rw [show ending w.mem r va = ((ending w.mem r va).1, l + 1, rd w.mem g (ix va (l + 1))) from hlast ▸ rfl, finish_huge hp hh]
    rfl
  have hne : rd w'.mem g1 ≠ rd w.mem g1 := by
    intro heq
    rw [← heq, hzero, absent_zero] at hpresent
    cases hpresent
  obtain ⟨x, hx, hdiff⟩ : ∃ x, x / 4096 = g1 ∧ w'.mem x ≠ w.mem x := by
    by_contra hnone
    push Not at hnone
    exact hne (rd_congr hnone)
  have htable := hex.writes x hdiff
  rw [hx] at htable
  obtain ⟨f, hf, hstate⟩ := hex.slot_kept htree hfewer hend htable hpresent hzero
  rcases hfreed f hstate with rfl | ⟨-, habs⟩
  · exact hf rfl
  · refine hex.path_kept htree hfewer hend hmapped (by decide) h3 ?_
    rcases hfewer g3 (ix va 2) with heq | h0
    · rw [heq, hp3] at habs
      cases habs
    · exact h0

/-! ### The four words that are read -/

variable {e4 e3 e2 e1 : Entry}

theorem Words.stray_iff (h : Words m r va e4 e3 e2 e1) :
    Stray m (r * 4096) va ↔ AllPresent e4 e3 e2 e1 ∧ (has e3 pteHuge = true ∨ has e2 pteHuge = true) := by
  unfold Stray AllPresent
  simp only [pml4Idx_eq, pdptIdx_eq, pdIdx_eq, ptIdx_eq, ← rd.eq_def, rd_addrOf, h.w4, h.w3, h.w2, h.w1]

theorem Words.smallEntry_none (h : Words m r va e4 e3 e2 e1) (habsent : ¬AllPresent e4 e3 e2 e1) :
    smallEntry m (r * 4096) va = none := by
  unfold smallEntry
  simp only [pml4Idx_eq, pdptIdx_eq, pdIdx_eq, ptIdx_eq, ← rd.eq_def, rd_addrOf, h.w4, h.w3, h.w2, h.w1]
  unfold AllPresent at habsent
  cases h4 : has e4 ptePresent <;> cases h3 : has e3 ptePresent <;> cases h2 : has e2 ptePresent <;>
    cases h1 : has e1 ptePresent <;> simp_all

theorem exact_refl (h : smallEntry w.mem (r * 4096) va = none) : ExactUnmap r va w w :=
  ⟨fun _ _ => rfl, fun _ hx => absurd rfl hx, fun _ hf => absurd rfl hf, fun _ => (and_iff_left rfl).symm, h⟩

/-- `unmap_page` is exact unless it follows a huge entry as far as its store. -/
theorem unmapPage_exact_iff {pml4 : ℕ} (htree : PageTables r w.mem) (hheld : Held r w)
    (hroot : resolvePml4 w pml4 = r * 4096) (hcall : unmapPage va pml4 w = some w') :
    ExactUnmap r va w w' ↔ ¬Stray w.mem (r * 4096) va := by
  obtain ⟨e4, e3, e2, e1, hwords⟩ : ∃ e4 e3 e2 e1, Words w.mem r va e4 e3 e2 e1 := ⟨_, _, _, _, rfl, rfl, rfl, rfl⟩
  have hself : tableAt nextTable (rd w.mem) (ix va) 3 3 r = some r := tableAt_self 3 r
  rw [hwords.stray_iff]
  rcases unmapPage_cases hwords hroot hcall with ⟨habsent, rfl⟩ | ⟨hall, w₁, w₂, w₃, hs⟩
  · exact iff_of_true (exact_refl (hwords.smallEntry_none habsent)) fun hstray => habsent hstray.1
  · obtain ⟨hp4, hp3, hp2, hp1⟩ := id hall
    obtain ⟨hfewer, hzero, hfreed⟩ := hs.effect
    have h3 : tableAt nextTable (rd w.mem) (ix va) 2 3 r = some (addrOf e4 / 4096) := by
      rw [tableAt_down hself, hwords.w4, nextTable_some hp4]
      exact hwords.w4 ▸ htree.top _ (hwords.w4.symm ▸ hp4)
    have hslot3 : has (rd w.mem (addrOf e4 / 4096) (ix va 2)) ptePresent = true := hwords.w3.symm ▸ hp3
    have hslot1 : has (rd w.mem (addrOf e2 / 4096) (ix va 0)) ptePresent = true := hwords.w1.symm ▸ hp1
    have hstray := fun l g => stray_inexact (l := l) (g := g) htree hfewer hzero hslot1 hfreed h3 hslot3
    cases hh3 : has e3 pteHuge with
    | true => exact iff_of_false (hstray 1 _ h3 hslot3 (hwords.w3.symm ▸ hh3)) fun hn => hn ⟨hall, .inl rfl⟩
    | false =>
      have h2 : tableAt nextTable (rd w.mem) (ix va) 1 3 r = some (addrOf e3 / 4096) := by
        rw [tableAt_down h3, hwords.w3, nextTable_some hp3 hh3]
      cases hh2 : has e2 pteHuge with
      | true =>
        exact iff_of_false (hstray 0 _ h2 (hwords.w2.symm ▸ hp2) (hwords.w2.symm ▸ hh2)) fun hn => hn ⟨hall, .inr rfl⟩
      | false =>
        have h1 : tableAt nextTable (rd w.mem) (ix va) 0 3 r = some (addrOf e2 / 4096) := by
          rw [tableAt_down h2, hwords.w2, nextTable_some hp2 hh2]
        refine iff_of_true (exact_of_path htree hheld h3 h2 h1 hs) ?_
        rintro ⟨-, hc | hc⟩ <;> cases hc

/-- `map_page` keeps what `unmap_page` needs. -/
theorem Mapping.mapPage (h : Mapping r w) (hheld : Held r w) {a : ℕ} {flags : Flags}
    (hroot : resolvePml4 w pml4 = r * 4096) (hcall : Vmm.mapPage va a flags pml4 w = some w') :
    Mapping r w' ∧ Held r w' := by
  obtain ⟨w₀, g, hmap, hsame, hg, hw'⟩ := h.walkDown hroot hcall
  obtain ⟨-, hmap', htables⟩ := hmap.leaf hg _ hw'
  refine ⟨hmap', fun f hf hne => ?_⟩
  rcases hsame.tables f ((htables f).1 hf) with hold | hlt
  · have hlt := (hheld f hold hne).1
    exact ⟨hlt, hmap'.kept f hf hlt⟩
  · exact ⟨hlt, hmap'.kept f hf hlt⟩

/-- The first page of the kernel half, mapped and unmapped. -/
theorem unmapPage_first : ∃ w w', mapPage halfStart 0x8000 kernelFlags 0 ⟨pagesTaken 0, fun _ => 0, 0x100 * 4096⟩ = some w ∧
    unmapPage halfStart 0 w = some w' ∧ ExactUnmap 0x100 halfStart w w' := by
  have hcall := map_small (n := 0) (by decide)
  obtain ⟨⟨htree, -⟩, hheld⟩ := mapping_blank.1.mapPage mapping_blank.2 rfl hcall
  obtain ⟨w', hw'⟩ : ∃ w', unmapPage halfStart 0 ⟨pagesTaken 3, onePage 0x100 1 2 3 halfStart (kernelPage 0x8000), 0x100 * 4096⟩ =
      some w' := Option.isSome_iff_exists.1 (by decide +kernel)
  refine ⟨_, w', hcall, hw', (unmapPage_exact_iff htree hheld rfl hw').mpr fun hstray => ?_⟩
  revert hstray
  unfold Stray
  decide +kernel

/-- One 1 GiB page of the kernel half; its first word looks like an entry. -/
def hugeData : Mem :=
  setEntry (setEntry (fun _ => 0) (0x40000 * 4096) (ix halfStart 0) 0x40000001#64) (1 * 4096) (ix halfStart 2) 0x40000083#64

def hugeWorld : World :=
  ⟨pagesTaken 1, setEntry hugeData (0x100 * 4096) (ix halfStart 3) (tableEntry (1 * 4096)), 0x100 * 4096⟩

theorem hugeData_bare (i : Fin 512) : nextTable (rd hugeData 1 i) = none := by
  unfold hugeData
  rw [rd_setEntry_self]
  by_cases hi : i = ix halfStart 2
  · rw [hi, update_self]
    decide
  · rw [update_of_ne hi, rd_set_ne (by decide)]
    exact nextTable_absent absent_zero

theorem hugeWorld_tables : PageTables 0x100 hugeWorld.mem ∧ Held 0x100 hugeWorld := by
  have hroot : ∀ i, rd hugeData 0x100 i = 0 := fun i => by
    unfold hugeData
    rw [rd_set_ne (by decide), rd_set_ne (by decide)]
    rfl
  have hbare : ∀ i, nextTable (rd hugeData 0x100 i) = none := fun i => by
    rw [hroot, nextTable_absent absent_zero]
  have honly : ∀ f, TableOf 0x100 hugeData f → f = 0x100 := fun f ⟨_, _, hf⟩ => (tableAt_bare hbare hf).2
  have hstore : SlotStore nextTable (rd hugeData) (rd hugeWorld.mem) 3 0x100 3 0x100 (ix halfStart 3) (tableEntry (1 * 4096)) :=
    ⟨unshared_bare hbare, ⟨ix halfStart, tableAt_self _ _⟩, rd_setEntry_self _ _ _ _, fun f _ hne => rd_set_ne hne⟩
  have hnext : nextTable (tableEntry (1 * 4096)) = some 1 := nextTable_tableEntry (by decide)
  have hbare' : 2 ≠ 0 → ∀ j, nextTable (rd hugeWorld.mem 1 j) = none := fun _ j => by
    rw [show rd hugeWorld.mem 1 = rd hugeData 1 from rd_set_ne (by decide)]
    exact hugeData_bare j
  refine ⟨⟨hstore.unshared_graft hnext (fun h => absurd (honly 1 h) (by decide)) hbare', fun i hi => ?_⟩, fun f hf hne => ?_⟩
  · rw [hstore.self] at hi ⊢
    by_cases hslot : i = ix halfStart 3
    · rw [hslot, update_self]
      decide
    · rw [update_of_ne hslot, hroot, absent_zero] at hi
      cases hi
  · rcases hstore.isTable_graft hnext hbare' hf with hf | rfl
    · exact absurd (honly f hf) hne
    · exact ⟨by decide, by decide +kernel⟩

/-- Unmapping its first 4 KiB takes the whole gigabyte away. -/
theorem unmapPage_huge : PageTables 0x100 hugeWorld.mem ∧ Held 0x100 hugeWorld ∧
    ∃ w', unmapPage halfStart 0 hugeWorld = some w' ∧ (access hugeWorld.mem 0x100000 (halfStart + 0x1000)).isSome = true ∧
      access w'.mem 0x100000 (halfStart + 0x1000) = none ∧ ¬ExactUnmap 0x100 halfStart hugeWorld w' := by
  have hbefore : (access hugeWorld.mem 0x100000 (halfStart + 0x1000)).isSome = true := by decide +kernel
  obtain ⟨w', hw', hafter⟩ : ∃ w', unmapPage halfStart 0 hugeWorld = some w' ∧
      (access w'.mem 0x100000 (halfStart + 0x1000)).isNone = true :=
    Option.map_eq_some_iff.1 (show (unmapPage halfStart 0 hugeWorld).map
      (fun w' => (access w'.mem 0x100000 (halfStart + 0x1000)).isNone) = some true by decide +kernel)
  have hnone := Option.isNone_iff_eq_none.1 hafter
  refine ⟨hugeWorld_tables.1, hugeWorld_tables.2, w', hw', hbefore, hnone, fun hex => ?_⟩
  have hsame := hex.others (halfStart + 0x1000) (by decide)
  rw [show (0x100 : ℕ) * 4096 = 0x100000 from rfl, hnone] at hsame
  rw [← hsame] at hbefore
  cases hbefore

end Tori.Vmm
