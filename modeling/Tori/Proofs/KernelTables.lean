import Tori.Spec.KernelHalf
import Tori.Sanity.PageTables
import Tori.Proofs.VmmAccount

/-! The stores of `map_page` and `unmap_page` in the kernel half. The walks of two PML4s agree below equal top entries, so
what has to be shown is that no store hits a PML4 of a user: every store goes to a table of the kernel half, or to a page
that was free. -/

namespace Tori.Vmm

open Loop Pmm Radix RadixWalk Function

variable {K va k l f g g' F a p q level : ℕ} {w w' w₁ : World} {users : Finset ℕ} {m m' : Mem}

variable {i x : Fin 512} {e : Entry} {st : State}

/-! ### Reading the kernel half -/

theorem kernelRd_ne (h : f ≠ K) : kernelRd K m f = rd m f := by
  funext i
  exact if_neg fun hc => h hc.1

theorem kernelRd_top (h : 256 ≤ i.val) (f : ℕ) : kernelRd K m f i = rd m f i :=
  if_neg fun hc => absurd hc.2 (by omega)

theorem kernelRd_congr (h : rd m' f = rd m f) : kernelRd K m' f = kernelRd K m f := by
  funext i
  unfold kernelRd
  rw [h]

theorem kernelRd_update (hi : f = K → 256 ≤ i.val)
    (h : rd m' f = update (rd m f) i e) : kernelRd K m' f = update (kernelRd K m f) i e := by
  funext x
  by_cases hx : x = i
  · subst hx
    rw [update_self, kernelRd, if_neg, h, update_self]
    rintro ⟨hf, hlt⟩
    exact absurd (hi hf) (by omega)
  · rw [update_of_ne hx, kernelRd, kernelRd, h, update_of_ne hx]

/-- A table of the kernel half. -/
def HalfTable (K : ℕ) (m : Mem) (f : ℕ) : Prop := IsTable nextTable (kernelRd K m) 3 K f

/-- The kernel half and the PML4s that share it. -/
structure Shared (K : ℕ) (w : World) (users : Finset ℕ) : Prop where
  root : w.kernelPml4Phys = K * 4096
  nonzero : K ≠ 0
  unshared : Unshared nextTable (kernelRd K w.mem) 3 K
  used : ∀ f, HalfTable K w.mem f → f < maxManagedPages → isPageUsed w.pmm f = true
  top : ∀ i : Fin 512, 256 ≤ i.val → has (rd w.mem K i) ptePresent = true → has (rd w.mem K i) pteHuge = false
  user : ∀ p ∈ users, ∃ u, p = u * 4096 ∧ isPageUsed w.pmm u = true ∧ ¬HalfTable K w.mem u ∧
    (∀ i : Fin 512, i.val < 256 → rd w.mem u i = 0) ∧ ∀ i : Fin 512, 256 ≤ i.val → rd w.mem u i = rd w.mem K i

theorem ix_three (va : ℕ) : (ix va 3).val = pml4Idx va := (pml4Idx_eq va).symm

theorem cls_of_nextTable (e : Entry) (g : ℕ) (h : nextTable e = some g) : cls e = .table g := by
  unfold nextTable at h
  split_ifs at h with hboth
  rw [Bool.and_eq_true, Bool.not_eq_true'] at hboth
  simpa [cls, hboth] using h

theorem KernelTables.shared (h : KernelTables K w) : Shared K w ∅ where
  root := h.root
  nonzero := h.nonzero
  unshared := unshared_of_own cls_of_nextTable (fun _ => le_rfl) h.once
  used f := fun ⟨_, _, hf⟩ => h.used f (own_of_tableAt cls_of_nextTable (fun _ => le_rfl) hf)
  top := h.top
  user p hp := absurd hp (Finset.notMem_empty p)

theorem halfTable_root (K : ℕ) (m : Mem) : HalfTable K m K := ⟨fun _ => 0, 3, tableAt_self 3 K⟩

theorem Shared.fresh (h : Shared K w users) (ha : Allocated w w₁ F) : ¬HalfTable K w.mem F := fun hF =>
  ha.ne_of_used (h.used F hF ha.lt) rfl

theorem Shared.ne_fresh (h : Shared K w users) (ha : Allocated w w₁ F) : K ≠ F := by
  rintro rfl
  exact h.fresh ha (halfTable_root K _)

/-- A present entry of the kernel's PML4 leads to a table of the kernel half. -/
theorem Shared.top_table (h : Shared K w users) (hi : 256 ≤ i.val) (hp : has (rd w.mem K i) ptePresent = true) :
    HalfTable K w.mem (addrOf (rd w.mem K i) / 4096) := by
  refine ⟨fun _ => i, 2, ?_⟩
  rw [tableAt_down (tableAt_self 3 K), kernelRd_top hi, nextTable_some hp (h.top i hi hp)]

theorem Shared.kernelShared (h : Shared K w users) : KernelShared ⟨w, users⟩ := by
  constructor
  · intro p hp va hva
    obtain ⟨u, rfl, -, -, -, htop⟩ := h.user p hp
    have htop := htop (ix va 3) (by rw [ix_three]; exact hva)
    have hentry : entry w.mem (u * 4096) (pml4Idx va) = entry w.mem w.kernelPml4Phys (pml4Idx va) := by
      rw [h.root, ← ix_three]
      exact htop
    simp only [walk, hentry]
  · intro p hp i hi hpresent hlt
    obtain ⟨u, rfl, -, -, hlow, htop⟩ := h.user p hp
    by_cases hlo : i < 256
    · rw [show entry w.mem (u * 4096) i = 0 from hlow ⟨i, hi⟩ hlo, absent_zero] at hpresent
      cases hpresent
    · have hsame : entry w.mem (u * 4096) i = rd w.mem K ⟨i, hi⟩ := htop ⟨i, hi⟩ (by dsimp only; omega)
      rw [hsame] at hpresent hlt ⊢
      exact h.used _ (h.top_table (by dsimp only; omega) hpresent) hlt

/-! ### Stores on the path of an address -/

/-- `g` is the table of level `k` on the walk to the kernel address `va`. -/
structure OnPath (K : ℕ) (w : World) (users : Finset ℕ) (va k g : ℕ) : Prop extends Shared K w users where
  high : 256 ≤ pml4Idx va
  reach : tableAt nextTable (kernelRd K w.mem) (ix va) k 3 K = some g

theorem Shared.onPath (h : Shared K w users) (hva : 256 ≤ pml4Idx va) : OnPath K w users va 3 K :=
  ⟨h, hva, tableAt_self 3 K⟩

namespace OnPath

section

variable (h : OnPath K w users va k g)
include h

theorem table : HalfTable K w.mem g := ⟨_, _, h.reach⟩

theorem level_top (hg : g = K) : k = 3 :=
  (h.unshared (ix va) (ix va) k 3 K (hg ▸ h.reach) (tableAt_self 3 K)).1

theorem slot_top (hg : g = K) : 256 ≤ (ix va k).val := by
  rw [h.level_top hg, ix_three]
  exact h.high

theorem slot_eq : kernelRd K w.mem g (ix va k) = rd w.mem g (ix va k) := by
  by_cases hg : g = K
  · exact kernelRd_top (h.slot_top hg) _
  · rw [kernelRd_ne hg]

end

theorem follow (h : OnPath K w users va (k + 1) g) (hnext : nextTable (rd w.mem g (ix va (k + 1))) = some g') :
    OnPath K w users va k g' :=
  ⟨h.toShared, h.high, by rw [tableAt_down h.reach, h.slot_eq, hnext]⟩

theorem link (h : OnPath K w users va (k + 1) g) (h' : OnPath K w users va k g') :
    nextTable (rd w.mem g (ix va (k + 1))) = some g' := by
  rw [← h.slot_eq, ← tableAt_down h.reach, h'.reach]

theorem ne_above (h : OnPath K w users va k g) (h' : OnPath K w users va l g') (hl : k < l) : g' ≠ g :=
  h.unshared.above h.reach h'.reach hl

theorem slotStore (h : OnPath K w users va k g) (w' : World) (hself : rd w'.mem g = update (rd w.mem g) (ix va k) e)
    (hother : ∀ f, HalfTable K w.mem f → f ≠ g → rd w'.mem f = rd w.mem f) :
    SlotStore nextTable (kernelRd K w.mem) (kernelRd K w'.mem) 3 K k g (ix va k) e :=
  ⟨h.unshared, ⟨_, h.reach⟩, kernelRd_update h.slot_top hself, fun f hf hne => kernelRd_congr (hother f hf hne)⟩

/-- What a store must do to keep the half shared. The tables above it stay on the path. -/
theorem store (h : OnPath K w users va k g)
    (hst : SlotStore nextTable (kernelRd K w.mem) (kernelRd K w'.mem) 3 K k g (ix va k) e)
    (hroot : w'.kernelPml4Phys = w.kernelPml4Phys) (hunshared : Unshared nextTable (kernelRd K w'.mem) 3 K)
    (hused : ∀ f, HalfTable K w'.mem f → f < maxManagedPages → isPageUsed w'.pmm f = true)
    (hsmall : k = 3 → has e ptePresent = true → has e pteHuge = false)
    (huser : ∀ u, ¬HalfTable K w.mem u → isPageUsed w.pmm u = true →
      rd w'.mem u = rd w.mem u ∧ isPageUsed w'.pmm u = true ∧ ¬HalfTable K w'.mem u) (hcond : k = 3 → users = ∅) :
    Shared K w' users ∧ ∀ {l f}, k ≤ l → OnPath K w users va l f → OnPath K w' users va l f := by
  have hK : k ≠ 3 → ∀ i : Fin 512, 256 ≤ i.val → rd w'.mem K i = rd w.mem K i := by
    intro hk i hi
    have hrow := congrFun (hst.other K (halfTable_root K _) fun hg => hk (h.level_top hg.symm)) i
    rwa [kernelRd_top hi, kernelRd_top hi] at hrow
  have hshared : Shared K w' users := by
    refine ⟨hroot.trans h.root, h.nonzero, hunshared, hused, fun i hi hp => ?_, fun p hp => ?_⟩
    · by_cases hk : k = 3
      · obtain rfl : g = K := tableAt_root (hk ▸ h.reach)
        rw [← kernelRd_top hi, hst.self] at hp ⊢
        by_cases hix : i = ix va k
        · rw [hix, update_self] at hp ⊢
          exact hsmall hk hp
        · rw [update_of_ne hix, kernelRd_top hi] at hp ⊢
          exact h.top i hi hp
      · rw [hK hk i hi] at hp ⊢
        exact h.top i hi hp
    · obtain ⟨u, rfl, hu, hnot, hlow, htop⟩ := h.user p hp
      obtain ⟨hrd, hused', hnot'⟩ := huser u hnot hu
      have hk : k ≠ 3 := by
        intro hk
        rw [hcond hk] at hp
        cases hp
      refine ⟨u, rfl, hused', hnot', fun i hi => ?_, fun i hi => ?_⟩
      · rw [hrd]
        exact hlow i hi
      · rw [hrd, htop i hi, hK hk i hi]
  exact ⟨hshared, fun hl h' => ⟨hshared, h.high, (hst.tableAt_above h.reach hl).trans h'.reach⟩⟩

theorem writeLeaf (h : OnPath K w users va 0 g) (e : Entry)
    (hw' : w' = { w with mem := setEntry w.mem (g * 4096) (ix va 0) e }) :
    Shared K w' users ∧ ∀ {l f}, 0 ≤ l → OnPath K w users va l f → OnPath K w' users va l f := by
  subst hw'
  have hst := h.slotStore { w with mem := setEntry w.mem (g * 4096) (ix va 0) e } (rd_setEntry_self _ _ _ _)
    fun _ _ => rd_set_ne
  have htable : ∀ f, HalfTable K (setEntry w.mem (g * 4096) (ix va 0) e) f ↔ HalfTable K w.mem f := fun f =>
    exists_congr fun jx => exists_congr fun l => by rw [hst.tableAt_leaf]
  refine h.store hst rfl (hst.unshared_dead (.inl rfl)) (fun f hf => h.used f ((htable f).1 hf)) (fun hk => by cases hk)
    (fun u hu hused => ⟨rd_set_ne fun hug => hu (hug ▸ h.table), hused, fun hu' => hu ((htable u).1 hu')⟩)
    fun hk => by cases hk

/-- A table in the fresh frame `F` is hooked in. -/
theorem graft (h : OnPath K w users va (k + 1) g) (ha : Allocated w w₁ F)
    (hbare : k ≠ 0 → ∀ j, nextTable (rd w₁.mem F j) = none) (hcond : k = 2 → users = ∅)
    (hw' : w' = { w₁ with mem := setEntry w₁.mem (g * 4096) (ix va (k + 1)) (tableEntry (F * 4096)) }) :
    rd w'.mem g (ix va (k + 1)) = tableEntry (F * 4096) ∧ OnPath K w' users va (k + 1) g ∧ OnPath K w' users va k F := by
  have hF := h.fresh ha
  have hgF : g ≠ F := fun heq => hF (heq ▸ h.table)
  have hnext := nextTable_tableEntry ha.lt
  have hother : ∀ f, f ≠ g → f ≠ F → rd w'.mem f = rd w.mem f := fun f hf hfF => by
    rw [hw', rd_set_ne hf, ha.rd hfF]
  have hself : rd w'.mem g = update (rd w.mem g) (ix va (k + 1)) (tableEntry (F * 4096)) := by
    rw [hw', rd_setEntry_self, ha.rd hgF]
  have hst := h.slotStore w' hself fun f hf hne => hother f hne fun heq => hF (heq ▸ hf)
  have hbare' : k ≠ 0 → ∀ j, nextTable (kernelRd K w'.mem F j) = none := fun hk j => by
    rw [kernelRd_ne (h.ne_fresh ha).symm, hw', rd_set_ne hgF.symm]
    exact hbare hk j
  have htables : ∀ f, HalfTable K w'.mem f → HalfTable K w.mem f ∨ f = F := fun f => hst.isTable_graft hnext hbare'
  have hpmm : w'.pmm = w₁.pmm := by rw [hw']
  have hroot : w'.kernelPml4Phys = w.kernelPml4Phys := by
    rw [hw']
    exact ha.kernel
  have hstored := h.store hst hroot (hst.unshared_graft hnext hF hbare') (fun f hf hlt => ?_)
    (fun _ _ => (tableEntry_bits ha.lt).2.1) (fun u hu hused => ?_) fun hk => hcond (by omega)
  · obtain ⟨hshared, hkeep⟩ := hstored
    exact ⟨by rw [hself, update_self], hkeep le_rfl h, hshared, h.high, hst.tableAt_hooked hnext h.reach rfl⟩
  · rw [hpmm]
    rcases htables f hf with hf | rfl
    · exact ha.kept (h.used f hf hlt)
    · exact ha.used
  · have huF := ha.ne_of_used hused
    rw [hpmm]
    exact ⟨hother u (fun heq => hu (heq ▸ h.table)) huF, ha.kept hused, fun hu' => (htables u hu').elim hu huF⟩

end OnPath

/-! ### `map_page` -/

theorem OnPath.ensureTable (h : OnPath K w users va (k + 1) g)
    (hsmall : has (rd w.mem g (ix va (k + 1))) ptePresent = true → has (rd w.mem g (ix va (k + 1))) pteHuge = false)
    (hcond : k = 2 → users = ∅ ∨ has (rd w.mem g (ix va (k + 1))) ptePresent = true)
    (hcall : ensureTable (g * 4096) (ix va (k + 1)) w = some (a, w')) : ∃ g', a = g' * 4096 ∧ OnPath K w' users va k g' := by
  obtain ⟨hP, rfl, rfl⟩ | ⟨hP, F, w₁, rfl, ha, hz, hw'⟩ := ensureTable_cases hcall
  · exact ⟨_, (addrOf_div_mul _).symm, h.follow (nextTable_some hP (hsmall hP))⟩
  · obtain ⟨-, -, hF⟩ := h.graft ha (fun _ j => by rw [hz, nextTable_absent absent_zero])
      (fun hk => (hcond hk).resolve_right (by rw [hP]; exact Bool.noConfusion)) hw'
    exact ⟨F, rfl, hF⟩

theorem has_huge_or (e : Entry) : has (e ||| pteHuge) pteHuge = true := by
  rw [has_huge, BitVec.getLsbD_or]
  simp [pteHuge]

/-- Entry `j` of the table that replaces the huge entry `e`. -/
def splitEntry (e : Entry) (level j : ℕ) : Entry :=
  let baseAligned := (e &&& pteAddrMask) &&& ~~~((1#64 <<< (if level = 1 then 30 else 21)) - 1#64)
  let flags := e &&& (ptePresent ||| pteWritable ||| pteUser ||| 0x18#64 ||| (1#64 <<< 63))
  let sub := (baseAligned + BitVec.ofNat 64 j * (if level = 1 then 1#64 <<< 21 else 1#64 <<< 12)) ||| flags
  if level = 1 then sub ||| pteHuge else sub

theorem splitHuge_eq (table i level : ℕ) (w : World) : splitHuge table i level w =
    if (allocPage w.pmm).1 = invalidPhysicalAddress then none
    else some { w with
      pmm := (allocPage w.pmm).2
      mem := setEntry (forUp (fun j m => setEntry m (allocPage w.pmm).1 j (splitEntry (entry w.mem table i) level j)) 512 0
        w.mem) table i (tableEntry (allocPage w.pmm).1) } := rfl

/-- `split_huge` hooks in a fresh table with the entries of the page. -/
theorem splitHuge_table {table i : ℕ} (hcall : splitHuge table i level w = some w') :
    ∃ F w₁, Allocated w w₁ F ∧ w' = { w₁ with mem := setEntry w₁.mem table i (tableEntry (F * 4096)) } ∧
      ∀ j : Fin 512, rd w₁.mem F j = splitEntry (entry w.mem table i) level j := by
  rw [splitHuge_eq] at hcall
  generalize splitEntry (entry w.mem table i) level = v at hcall
  cases halloc : allocPage w.pmm with
  | mk b st =>
    rw [halloc] at hcall
    split_ifs at hcall with hinv
    obtain ⟨F, rfl, ha⟩ := allocated halloc hinv
    obtain ⟨hout, -⟩ := forUp_setEntry (fun j _ => v j) 512 0 w.mem le_rfl
    have hfill := fun j : Fin 512 => forUp_fill (f := F) (e := v) 512 0 w.mem le_rfl (fun _ _ _ _ => rfl) j (Nat.zero_le _) (by omega)
    generalize forUp (fun j m => setEntry m (F * 4096) j (v j)) 512 0 w.mem = m₁ at hout hfill hcall
    cases hcall
    exact ⟨F, { w with pmm := st, mem := m₁ }, ⟨ha.lt, ha.free, ha.pmm, hout, rfl⟩, rfl, hfill⟩

/-- The entries of a split 1 GiB page are huge again. -/
theorem splitEntry_huge (e : Entry) (j : ℕ) : has (splitEntry e 1 j) pteHuge = true := has_huge_or _

theorem splitIfHuge_cases (hcall : splitIfHuge (g * 4096) i level w = some w') :
    w' = w ∧ (has (rd w.mem g i) ptePresent = true → has (rd w.mem g i) pteHuge = false) ∨
      (has (rd w.mem g i) ptePresent = true ∧ has (rd w.mem g i) pteHuge = true) ∧ ∃ F w₁, Allocated w w₁ F ∧
        w' = { w₁ with mem := setEntry w₁.mem (g * 4096) i (tableEntry (F * 4096)) } ∧
        ∀ j : Fin 512, rd w₁.mem F j = splitEntry (rd w.mem g i) level j := by
  unfold Vmm.splitIfHuge at hcall
  simp only [← rd.eq_def] at hcall
  split_ifs at hcall with hboth
  · rw [Bool.and_eq_true] at hboth
    exact .inr ⟨hboth, splitHuge_table hcall⟩
  · cases hcall
    refine .inl ⟨rfl, fun hp => ?_⟩
    simpa [hp] using hboth

/-- Below the top a huge page is split before the walk goes on. -/
theorem OnPath.splitIfHuge (h : OnPath K w users va (k + 1) g) (hk : k ≠ 2) (hlevel : k = 0 ∨ level = 1)
    (hcall : splitIfHuge (g * 4096) (ix va (k + 1)) level w = some w') :
    OnPath K w' users va (k + 1) g ∧
      (has (rd w'.mem g (ix va (k + 1))) ptePresent = true → has (rd w'.mem g (ix va (k + 1))) pteHuge = false) := by
  obtain ⟨rfl, hsmall⟩ | ⟨-, F, w₁, ha, hw', hfill⟩ := splitIfHuge_cases hcall
  · exact ⟨h, hsmall⟩
  · obtain ⟨hentry, h', -⟩ := h.graft ha
      (fun hk0 j => by
        rw [hfill, hlevel.resolve_left hk0]
        exact nextTable_huge (splitEntry_huge _ _)) (fun hk2 => absurd hk2 hk) hw'
    refine ⟨h', fun _ => ?_⟩
    rw [hentry]
    exact (tableEntry_bits ha.lt).2.1

theorem Shared.resolve (h : Shared K w users) : resolvePml4 w 0 = K * 4096 := h.root

theorem Shared.mapPage (h : Shared K w users) (hva : 256 ≤ pml4Idx va)
    (hcond : users = ∅ ∨ has (rd w.mem K (ix va 3)) ptePresent = true) {flags : Flags}
    (hcall : mapPage va a flags 0 w = some w') : Shared K w' users := by
  have hne : K * 4096 ≠ 0 := by
    have := h.nonzero
    omega
  unfold Vmm.mapPage at hcall
  simp only [h.resolve, if_neg hne, pml4Idx_eq, pdptIdx_eq, pdIdx_eq, ptIdx_eq, Option.bind_eq_bind] at hcall
  obtain ⟨⟨a3, w1⟩, hc1, hcall⟩ := Option.bind_eq_some_iff.1 hcall
  obtain ⟨g2, rfl, h2⟩ := (h.onPath hva).ensureTable (h.top (ix va 3) (by rw [ix_three]; exact hva)) (fun _ => hcond) hc1
  obtain ⟨w2, hc2, hcall⟩ := Option.bind_eq_some_iff.1 hcall
  obtain ⟨h2, hsmall2⟩ := h2.splitIfHuge (by decide) (.inr rfl) hc2
  obtain ⟨⟨a2, w3⟩, hc3, hcall⟩ := Option.bind_eq_some_iff.1 hcall
  obtain ⟨g1, rfl, h1⟩ := h2.ensureTable hsmall2 (fun hk => by cases hk) hc3
  obtain ⟨w4, hc4, hcall⟩ := Option.bind_eq_some_iff.1 hcall
  obtain ⟨h1, hsmall1⟩ := h1.splitIfHuge (by decide) (.inl rfl) hc4
  obtain ⟨⟨a1, w5⟩, hc5, hcall⟩ := Option.bind_eq_some_iff.1 hcall
  obtain ⟨g0, rfl, h0⟩ := h1.ensureTable hsmall1 (fun hk => by cases hk) hc5
  cases hcall
  exact (h0.writeLeaf _ rfl).1

/-! ### `unmap_page` -/

theorem pageState_freePage_ne (h : q ≠ p) :
    pageState (freePage (p * 4096) st) q = pageState st q := by
  by_cases hp : p < maxManagedPages
  · rw [pageState_freePage st hp q, if_neg (Ne.symm h)]
    rfl
  · have hdiv : p * 4096 / pageSize = p := Nat.mul_div_cancel _ (by decide)
    unfold freePage Pmm.freePages
    rw [if_neg (by simp [pageSize])]
    rw [hdiv, if_pos (.inl (by simp [pageIndexValid, hp]))]

theorem isPageUsed_freePage (h : q ≠ p) : isPageUsed (freePage (p * 4096) st) q = isPageUsed st q :=
  congrArg Prod.fst (pageState_freePage_ne h)

theorem tableIsEmpty_false (h : has (rd m f i) ptePresent = true) :
    tableIsEmpty m (f * 4096) = false := by
  rw [tableIsEmpty, findUp_eq_find?, Option.isNone_eq_false_iff, List.find?_isSome]
  exact ⟨i, List.mem_range'_1.2 ⟨Nat.zero_le _, by omega⟩, h⟩

theorem table_empty (h : tableIsEmpty m (f * 4096) = true) (i : Fin 512) : has (rd m f i) ptePresent = false := by
  by_contra hp
  rw [tableIsEmpty_false (Bool.eq_true_of_not_eq_false hp)] at h
  cases h

theorem cleanupEntry_eq (i : Fin 512) (hlevel : level ≠ 0) (w : World) :
    cleanupEntry (g * 4096) level (f * 4096) i w = w ∧ tableIsEmpty w.mem (g * 4096) = false ∨
      cleanupEntry (g * 4096) level (f * 4096) i w =
        { w with pmm := freePage (g * 4096) w.pmm, mem := setEntry w.mem (f * 4096) i 0 } ∧
      tableIsEmpty w.mem (g * 4096) = true := by
  unfold cleanupEntry cleanupTableLevel
  rw [if_neg hlevel]
  cases htable : tableIsEmpty w.mem (g * 4096) <;> simp

theorem cleanupEntry_rd (hlevel : level ≠ 0) {x : ℕ} (hx : x ≠ f) :
    rd (cleanupEntry (g * 4096) level (f * 4096) i w).mem x = rd w.mem x := by
  rcases cleanupEntry_eq i hlevel w with ⟨heq, -⟩ | ⟨heq, -⟩
  · rw [heq]
  · rw [heq]
    exact rd_set_ne hx

theorem cleanupEntry_rd_slot (hlevel : level ≠ 0) (hx : x ≠ i) :
    rd (cleanupEntry (g * 4096) level (f * 4096) i w).mem f x = rd w.mem f x := by
  rcases cleanupEntry_eq i hlevel w with ⟨heq, -⟩ | ⟨heq, -⟩
  · rw [heq]
  · rw [heq]
    exact (congrFun (rd_setEntry_self _ _ _ _) x).trans (update_of_ne hx _ _)

theorem cleanupEntry_present (hlevel : level ≠ 0)
    (h : has (rd w.mem g x) ptePresent = true) : cleanupEntry (g * 4096) level (f * 4096) i w = w := by
  rcases cleanupEntry_eq i hlevel w with ⟨heq, -⟩ | ⟨-, htable⟩
  · exact heq
  · rw [tableIsEmpty_false h] at htable
    cases htable

theorem OnPath.prune (h : OnPath K w users va (k + 1) g) (h' : OnPath K w users va k g')
    (hbare : ∀ j, nextTable (rd w.mem g' j) = none) (hcond : k = 2 → users = ∅)
    (hw' : w' = { w with pmm := freePage (g' * 4096) w.pmm, mem := setEntry w.mem (g * 4096) (ix va (k + 1)) 0 }) :
    Shared K w' users ∧ ∀ {l f}, k + 1 ≤ l → OnPath K w users va l f → OnPath K w' users va l f := by
  subst hw'
  set w' : World := { w with pmm := freePage (g' * 4096) w.pmm, mem := setEntry w.mem (g * 4096) (ix va (k + 1)) 0 }
  have hdead : nextTable (0 : Entry) = none := nextTable_absent absent_zero
  have hst := h.slotStore w' (rd_setEntry_self _ _ _ _) fun _ _ => rd_set_ne
  have hg'K : g' ≠ K := by
    intro heq
    have := h'.level_top heq
    have := tableAt_le h.reach
    omega
  have htables : ∀ f, HalfTable K w'.mem f ↔ HalfTable K w.mem f ∧ f ≠ g' := fun f =>
    hst.isTable_prune hdead (by rw [h.slot_eq, h.link h']) fun _ j => by
      rw [kernelRd_ne hg'K]
      exact hbare j
  refine h.store hst rfl (hst.unshared_dead (.inr hdead)) (fun f hf hlt => ?_) (fun _ hp => ?_) (fun u hu hused => ?_)
    fun hk => hcond (by omega)
  · obtain ⟨hf, hne⟩ := (htables f).1 hf
    exact (isPageUsed_freePage hne).trans (h.used f hf hlt)
  · rw [absent_zero] at hp
    cases hp
  · have hug' : u ≠ g' := fun heq => hu (heq ▸ h'.table)
    exact ⟨rd_set_ne fun heq => hu (heq ▸ h.table), (isPageUsed_freePage hug').trans hused,
      fun hu' => hu ((htables u).1 hu').1⟩

theorem OnPath.cleanupEntry (h : OnPath K w users va (k + 1) g) (h' : OnPath K w users va k g') (hlevel : level ≠ 0)
    (hcond : k = 2 → users = ∅ ∨ ∃ x, has (rd w.mem g' x) ptePresent = true)
    (hw' : w' = cleanupEntry (g' * 4096) level (g * 4096) (ix va (k + 1)) w) :
    Shared K w' users ∧ ∀ {l f}, k + 1 ≤ l → OnPath K w users va l f → OnPath K w' users va l f := by
  rcases cleanupEntry_eq (ix va (k + 1)) hlevel w with ⟨heq, -⟩ | ⟨heq, hempty⟩
  · rw [hw', heq]
    exact ⟨h.toShared, fun _ => id⟩
  · refine h.prune h' (fun j => nextTable_absent (table_empty hempty j)) (fun hk => ?_) (hw'.trans heq)
    rcases hcond hk with hnone | ⟨x, hx⟩
    · exact hnone
    · rw [table_empty hempty] at hx
      cases hx

theorem present_of_next (h : nextTable e = some g) : has e ptePresent = true := by
  by_contra hp
  rw [nextTable_absent (Bool.eq_false_of_not_eq_true hp)] at h
  cases h

variable {w₂ w₃ w₄ : World} {r g3 g2 g1 pml4 : ℕ}

/-- The stores of `unmap_page`, once it has the tables. -/
structure Stores (r va g3 g2 g1 : ℕ) (w w₁ w₂ w₃ w₄ : World) : Prop where
  leaf : w₁ = { w with mem := setEntry w.mem (g1 * 4096) (ix va 0) 0 }
  low : w₂ = cleanupEntry (g1 * 4096) 1 (g2 * 4096) (ix va 1) w₁
  mid : w₃ = cleanupEntry (g2 * 4096) 2 (g3 * 4096) (ix va 2) w₂
  high : w₄ = cleanupEntry (g3 * 4096) 3 (r * 4096) (ix va 3) w₃

/-- The words that `unmap_page` takes for the entries of `va`. -/
structure Words (m : Mem) (r va : ℕ) (e4 e3 e2 e1 : Entry) : Prop where
  w4 : rd m r (ix va 3) = e4
  w3 : rd m (addrOf e4 / 4096) (ix va 2) = e3
  w2 : rd m (addrOf e3 / 4096) (ix va 1) = e2
  w1 : rd m (addrOf e2 / 4096) (ix va 0) = e1

def AllPresent (e4 e3 e2 e1 : Entry) : Prop :=
  has e4 ptePresent = true ∧ has e3 ptePresent = true ∧ has e2 ptePresent = true ∧ has e1 ptePresent = true

variable {e4 e3 e2 e1 : Entry}

/-- `unmap_page` stops at a word that is not present, or it clears the last one and goes back up. -/
theorem unmapPage_cases (h : Words w.mem r va e4 e3 e2 e1) (hroot : resolvePml4 w pml4 = r * 4096)
    (hcall : unmapPage va pml4 w = some w') :
    (¬AllPresent e4 e3 e2 e1 ∧ w' = w) ∨
      (AllPresent e4 e3 e2 e1 ∧
        ∃ w₁ w₂ w₃, Stores r va (addrOf e4 / 4096) (addrOf e3 / 4096) (addrOf e2 / 4096) w w₁ w₂ w₃ w') := by
  unfold unmapPage at hcall
  simp only [hroot, pml4Idx_eq, pdptIdx_eq, pdIdx_eq, ptIdx_eq, ← rd.eq_def, rd_addrOf, h.w4, h.w3, h.w2, h.w1] at hcall
  split_ifs at hcall with h0 h4 h3 h2 h1
  · exact .inl ⟨fun hall => by simp [hall.1] at h4, (Option.some.inj hcall).symm⟩
  · exact .inl ⟨fun hall => by simp [hall.2.1] at h3, (Option.some.inj hcall).symm⟩
  · exact .inl ⟨fun hall => by simp [hall.2.2.1] at h2, (Option.some.inj hcall).symm⟩
  · exact .inl ⟨fun hall => by simp [hall.2.2.2] at h1, (Option.some.inj hcall).symm⟩
  · simp only [Bool.not_eq_true, Bool.not_eq_false'] at h4 h3 h2 h1
    refine .inr ⟨⟨h4, h3, h2, h1⟩, _, _, _, rfl, rfl, rfl, ?_⟩
    simp only [addrOf_div_mul]
    exact (Option.some.inj hcall).symm

/-- The stores along a path of the kernel half. -/
theorem OnPath.stores (h3 : OnPath K w users va 2 g3) (h2 : OnPath K w users va 1 g2)
    (h1 : OnPath K w users va 0 g1) (hs : Stores K va g3 g2 g1 w w₁ w₂ w₃ w₄)
    (hkeep : users = ∅ ∨ (∃ x, x ≠ ix va 0 ∧ has (rd w.mem g1 x) ptePresent = true) ∨
      (∃ x, x ≠ ix va 1 ∧ has (rd w.mem g2 x) ptePresent = true) ∨ ∃ x, x ≠ ix va 2 ∧ has (rd w.mem g3 x) ptePresent = true) :
    Shared K w₄ users := by
  obtain ⟨hw₁, hw₂, hw₃, hw₄⟩ := hs
  have h21 : g2 ≠ g1 := h1.ne_above h2 (by decide)
  have h31 : g3 ≠ g1 := h1.ne_above h3 (by decide)
  have h32 : g3 ≠ g2 := h2.ne_above h3 (by decide)
  obtain ⟨-, keep₁⟩ := h1.writeLeaf 0 hw₁
  have p2 := keep₁ (Nat.zero_le _) h2
  have p3 := keep₁ (Nat.zero_le _) h3
  have p1 := keep₁ (Nat.zero_le _) h1
  obtain ⟨-, keep₂⟩ := p2.cleanupEntry p1 (by decide) (fun hk => by cases hk) hw₂
  have q2 := keep₂ le_rfl p2
  have q3 := keep₂ (by decide) p3
  obtain ⟨hshared, keep₃⟩ := q3.cleanupEntry q2 (by decide) (fun hk => by cases hk) hw₃
  refine ((hshared.onPath h3.high).cleanupEntry (keep₃ le_rfl q3) (by decide) (fun _ => ?_) hw₄).1
  -- A present entry anywhere on the way stops the clean-up there.
  have hrd₁ : ∀ x, x ≠ g1 → rd w₁.mem x = rd w.mem x := by
    intro x hx
    rw [hw₁]
    exact rd_set_ne hx
  rcases hkeep with hnone | ⟨x, hx, hp⟩ | ⟨x, hx, hp⟩ | ⟨x, hx, hp⟩
  · exact .inl hnone
  · have hp₁ : has (rd w₁.mem g1 x) ptePresent = true := by
      rw [hw₁, congrFun (rd_setEntry_self _ _ _ _) x, update_of_ne hx]
      exact hp
    have heq₂ : w₂ = w₁ := hw₂.trans (cleanupEntry_present (by decide) hp₁)
    have heq₃ : w₃ = w₂ := hw₃.trans (cleanupEntry_present (by decide) (by rw [heq₂]; exact present_of_next (p2.link p1)))
    exact .inr ⟨ix va 2, by rw [heq₃]; exact present_of_next (q3.link q2)⟩
  · have hp₂ : has (rd w₂.mem g2 x) ptePresent = true := by
      rw [hw₂, cleanupEntry_rd_slot (by decide) hx, hrd₁ _ h21]
      exact hp
    have heq₃ : w₃ = w₂ := hw₃.trans (cleanupEntry_present (by decide) hp₂)
    exact .inr ⟨ix va 2, by rw [heq₃]; exact present_of_next (q3.link q2)⟩
  · refine .inr ⟨x, ?_⟩
    rw [hw₃, cleanupEntry_rd_slot (by decide) hx, hw₂, cleanupEntry_rd (by decide) h32, hrd₁ _ h31]
    exact hp

theorem Shared.unmapPage (h : Shared K w users) (hva : 256 ≤ pml4Idx va)
    (hkeep : UnmapKeeps w.mem w.kernelPml4Phys va users) (hcall : unmapPage va 0 w = some w') : Shared K w' users := by
  obtain ⟨e4, e3, e2, e1, hwords⟩ : ∃ e4 e3 e2 e1, Words w.mem K va e4 e3 e2 e1 := ⟨_, _, _, _, rfl, rfl, rfl, rfl⟩
  rcases unmapPage_cases hwords h.resolve hcall with ⟨-, rfl⟩ | ⟨⟨hp4, hp3, hp2, hp1⟩, w₁, w₂, w₃, hs⟩
  · exact h
  have hothers : ∀ (e : Entry) (i : Fin 512), Others w.mem (addrOf e) i →
      ∃ x, x ≠ i ∧ has (rd w.mem (addrOf e / 4096) x) ptePresent = true := by
    rintro e i ⟨x, hx, hp⟩
    refine ⟨x, fun heq => hx (congrArg Fin.val heq), ?_⟩
    rw [← rd_addrOf]
    exact hp
  unfold UnmapKeeps pte pde pdpte pml4e at hkeep
  simp only [h.root, pml4Idx_eq, pdptIdx_eq, pdIdx_eq, ptIdx_eq, ← rd.eq_def, rd_addrOf, hwords.w4, hwords.w3, hwords.w2,
    hwords.w1] at hkeep
  obtain ⟨hhuge3, hhuge2, hkeep⟩ := hkeep hp4 hp3 hp2 hp1
  have hhuge4 : has e4 pteHuge = false :=
    hwords.w4 ▸ h.top (ix va 3) (by rw [ix_three]; exact hva) (hwords.w4.symm ▸ hp4)
  have h3 := (h.onPath hva).follow (by rw [hwords.w4, nextTable_some hp4 hhuge4])
  have h2 := h3.follow (by rw [hwords.w3, nextTable_some hp3 hhuge3])
  have h1 := h2.follow (by rw [hwords.w2, nextTable_some hp2 hhuge2])
  exact h3.stores h2 h1 hs (hkeep.imp_right fun hk => hk.imp (hothers e2 _) fun hk => hk.imp (hothers e3 _) (hothers e4 _))

end Tori.Vmm
