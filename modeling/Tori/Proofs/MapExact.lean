import Tori.Sanity.PageTables
import Tori.Proofs.KernelHalf

/-! `map_page` changes one translation. Each table it hooks in, empty or filled by `split_huge`, leaves every translation
as it was; then one leaf entry is written. -/

namespace Tori.Vmm

open Loop Pmm RadixWalk

variable {w w' w₁ : World} {r va va' k g F : ℕ} {e : Entry} {p : Rights}

variable {q j a : ℕ}

/-! ### Entries -/

theorem has_noExecute (e : Entry) : has e pteNoExecute = e.getLsbD 63 := has_bit e (by decide)

theorem huge_bit (i : ℕ) : pteHuge.getLsbD i = decide (i = 7) := flag_bit (by decide) i

/-- An intermediate entry of the kernel takes no right away. -/
theorem pass_tableEntry (hF : F < maxManagedPages) (p : Rights) : p.pass (tableEntry (F * 4096)) = p := by
  have hlt : F < 2 ^ 40 := lt_trans hF (by decide)
  obtain ⟨-, -, hw, hu, -⟩ := tableEntry_bits hF
  have hx : has (tableEntry (F * 4096)) pteNoExecute = false := by
    rw [has_noExecute, tableEntry]
    simp only [BitVec.getLsbD_or, present_bit, writable_bit, user_bit, frame_bit hlt (show 63 < 64 by decide)]
    simp
  simp [Rights.pass, hw, hu, hx]

/-- `pte_present | pte_writable | pte_user | 0x18 | (1ULL << 63)` -/
def splitMask : Entry := ptePresent ||| pteWritable ||| pteUser ||| 0x18#64 ||| (1#64 <<< 63)

theorem splitMask_bit {i : ℕ} (hi : i < 64) : splitMask.getLsbD i = decide (i < 5 ∨ i = 63) := by
  have h : ∀ i : Fin 64, splitMask.getLsbD i = decide (i.val < 5 ∨ i.val = 63) := by decide
  exact h ⟨i, hi⟩

/-- A frame with the flags that `split_huge` hands down. -/
theorem splitFlags_bits (hq : q < 2 ^ 40) (e : Entry) :
    let x := BitVec.ofNat 64 (q * 4096) ||| (e &&& splitMask)
    (has x ptePresent = has e ptePresent ∧ addrOf x = q * 4096 ∧ ∀ p : Rights, p.pass x = p.pass e) ∧
      has (x ||| pteHuge) ptePresent = has e ptePresent ∧ addrOf (x ||| pteHuge) = q * 4096 ∧
        ∀ p : Rights, p.pass (x ||| pteHuge) = p.pass e := by
  have hbit : ∀ i, i < 64 → (BitVec.ofNat 64 (q * 4096) ||| (e &&& splitMask)).getLsbD i =
      (decide (12 ≤ i ∧ i < 52) && q.testBit (i - 12) || e.getLsbD i && decide (i < 5 ∨ i = 63)) := by
    intro i hi
    rw [BitVec.getLsbD_or, frame_bit hq hi, BitVec.getLsbD_and, splitMask_bit hi]
  have haddr : ∀ y : Entry, (∀ i, 12 ≤ i → i < 52 → y.getLsbD i = (BitVec.ofNat 64 (q * 4096)).getLsbD i) →
      addrOf y = q * 4096 := fun y hy => (addrOf_congr hy).trans (addrOf_frame hq)
  intro x
  have hx : ∀ i, i < 64 → x.getLsbD i = _ := hbit
  refine ⟨⟨?_, haddr x fun i h1 h2 => ?_, fun p => ?_⟩, ?_, haddr _ fun i h1 h2 => ?_, fun p => ?_⟩
  · rw [has_present, has_present, hx 0 (by decide)]
    simp
  · rw [hx i (by omega), frame_bit hq (by omega)]
    simp [show ¬(i < 5 ∨ i = 63) by omega]
  · simp only [Rights.pass, has_writable, has_user, has_noExecute, hx 1 (by decide), hx 2 (by decide), hx 63 (by decide)]
    simp
  · rw [has_present, has_present, BitVec.getLsbD_or, hx 0 (by decide), huge_bit]
    simp
  · rw [BitVec.getLsbD_or, hx i (by omega), frame_bit hq (by omega), huge_bit]
    simp [show ¬(i < 5 ∨ i = 63) by omega, show i ≠ 7 by omega]
  · simp only [Rights.pass, has_writable, has_user, has_noExecute, BitVec.getLsbD_or, huge_bit, hx 1 (by decide),
      hx 2 (by decide), hx 63 (by decide)]
    simp

theorem addrOf_lt_pow (e : Entry) : addrOf e < 2 ^ 52 := by
  have h : addrOf e ≤ pteAddrMask.toNat := by
    unfold addrOf
    rw [BitVec.toNat_and]
    exact Nat.and_le_right
  exact lt_of_le_of_lt h (by decide)

theorem baseAligned_toNat (e : Entry) {b : ℕ} (hb : b < 64) :
    ((e &&& pteAddrMask) &&& ~~~((1#64 <<< b) - 1#64)).toNat = addrOf e / 2 ^ b * 2 ^ b := by
  have hpow : 2 ^ b < 2 ^ 64 := Nat.pow_lt_pow_right (by decide) hb
  have hpos : 0 < 2 ^ b := Nat.two_pow_pos b
  have hlow : ((1#64 <<< b) - 1#64).toNat = 2 ^ b - 1 := by
    rw [← BitVec.twoPow_eq, BitVec.toNat_sub, BitVec.toNat_twoPow, Nat.mod_eq_of_lt hpow]
    simp only [BitVec.toNat_ofNat, Nat.reducePow, Nat.reduceMod]
    omega
  rw [BitVec.toNat_and, BitVec.toNat_not, hlow]
  exact Word.and_mask _ b ((e &&& pteAddrMask).isLt) hb.le

/-- The frame of entry `j` of the table that replaces the entry `e` at level `k + 1`. -/
def splitFrame (e : Entry) (k j : ℕ) : ℕ := addrOf e / 2 ^ (21 + 9 * k) * 2 ^ (9 + 9 * k) + j * 2 ^ (9 * k)

theorem splitFrame_lt (e : Entry) (hk : k ≤ 1) (hj : j < 512) : splitFrame e k j < 2 ^ 40 := by
  have h := addrOf_lt_pow e
  unfold splitFrame
  interval_cases k <;> norm_num at h ⊢ <;> omega

theorem splitEntry_eq (e : Entry) (hj : j < 512) :
    splitEntry e 1 j = BitVec.ofNat 64 (splitFrame e 1 j * 4096) ||| (e &&& splitMask) ||| pteHuge ∧
      splitEntry e 2 j = BitVec.ofNat 64 (splitFrame e 0 j * 4096) ||| (e &&& splitMask) := by
  have haddr := addrOf_lt_pow e
  have hsum : ∀ {b s : ℕ}, b < 64 → s < 64 → addrOf e / 2 ^ b * 2 ^ b + j * 2 ^ s < 2 ^ 64 → j * 2 ^ s < 2 ^ 64 →
      ((e &&& pteAddrMask) &&& ~~~((1#64 <<< b) - 1#64)) + BitVec.ofNat 64 j * (1#64 <<< s) =
        BitVec.ofNat 64 (addrOf e / 2 ^ b * 2 ^ b + j * 2 ^ s) := by
    intro b s hb hs hlt hlt'
    have hshift : (1#64 <<< s) = BitVec.ofNat 64 (2 ^ s) := by
      rw [← BitVec.twoPow_eq]
      exact BitVec.eq_of_toNat_eq (by rw [BitVec.toNat_twoPow, BitVec.toNat_ofNat])
    refine BitVec.eq_of_toNat_eq ?_
    rw [hshift, ← BitVec.ofNat_mul, BitVec.toNat_add, baseAligned_toNat e hb, BitVec.toNat_ofNat, BitVec.toNat_ofNat,
      Nat.mod_eq_of_lt hlt']
  have h1 := hsum (b := 30) (s := 21) (by decide) (by decide) (by omega) (by omega)
  have h2 := hsum (b := 21) (s := 12) (by decide) (by decide) (by omega) (by omega)
  have hf1 : splitFrame e 1 j * 4096 = addrOf e / 2 ^ 30 * 2 ^ 30 + j * 2 ^ 21 := by
    unfold splitFrame
    norm_num
    ring
  have hf2 : splitFrame e 0 j * 4096 = addrOf e / 2 ^ 21 * 2 ^ 21 + j * 2 ^ 12 := by
    unfold splitFrame
    norm_num
    ring
  constructor
  · rw [hf1, ← h1]
    rfl
  · rw [hf2, ← h2]
    rfl

theorem splitEntry_bits (e : Entry) (hk : k ≤ 1) (hj : j < 512) :
    has (splitEntry e (2 - k) j) ptePresent = has e ptePresent ∧ addrOf (splitEntry e (2 - k) j) = splitFrame e k j * 4096 ∧
      (∀ p : Rights, p.pass (splitEntry e (2 - k) j) = p.pass e) ∧ (k = 1 → has (splitEntry e (2 - k) j) pteHuge = true) := by
  obtain ⟨h1, h2⟩ := splitEntry_eq e hj
  obtain ⟨⟨hp, ha, hr⟩, hp', ha', hr'⟩ := splitFlags_bits (splitFrame_lt e hk hj) e
  interval_cases k
  · rw [h2]
    exact ⟨hp, ha, hr, fun h => absurd h (by decide)⟩
  · rw [h1]
    exact ⟨hp', ha', hr', fun _ => has_huge_or _⟩

/-- A split entry says of every address what the huge entry said. -/
theorem finish_split (hk : k ≤ 1) (hp : has e ptePresent = true) (hh : has e pteHuge = true) (va : ℕ) (p : Rights) :
    finish va (p, k, splitEntry e (2 - k) (ix va k)) = finish va (p, k + 1, e) := by
  obtain ⟨hp', ha', hr', hh'⟩ := splitEntry_bits e hk (ix va k).isLt
  rw [hp] at hp'
  have hix : (ix va k).val = va / 2 ^ (12 + 9 * k) % 512 := rfl
  rw [finish_huge hp hh]
  interval_cases k
  · rw [finish_small hp', hr', ha', splitFrame, hix]
    norm_num
    omega
  · rw [finish_huge hp' (hh' rfl), hr', ha', splitFrame, hix]
    norm_num
    omega

/-! ### Tables hooked in -/

/-- The tree, and the page allocator hands out none of its tables. -/
structure Mapping (r : ℕ) (w : World) : Prop extends PageTables r w.mem where
  kept : ∀ f, TableOf r w.mem f → f < maxManagedPages → isPageUsed w.pmm f = true

theorem Mapping.fresh (h : Mapping r w) (ha : Allocated w w₁ F) : ¬TableOf r w.mem F := fun hF =>
  ha.ne_of_used (h.kept F hF ha.lt) rfl

/-- No translation changes, and a table that is new comes from the page allocator. -/
structure Quiet (r : ℕ) (w w' : World) : Prop where
  access : ∀ va', access w'.mem (r * 4096) va' = access w.mem (r * 4096) va'
  tables : ∀ f, TableOf r w'.mem f → TableOf r w.mem f ∨ f < maxManagedPages

theorem Quiet.refl (r : ℕ) (w : World) : Quiet r w w := ⟨fun _ => rfl, fun _ => .inl⟩

theorem Quiet.trans (h : Quiet r w w₁) (h' : Quiet r w₁ w') : Quiet r w w' := by
  refine ⟨fun va' => (h'.access va').trans (h.access va'), fun f hf => ?_⟩
  rcases h'.tables f hf with hf | hlt
  · exact h.tables f hf
  · exact .inr hlt

/-- Only tables are taken from the page allocator: the rights along every path stay, so do paths that start elsewhere than
that of `va`, and pages in use that are no tables keep their bytes. -/
structure Gains (r va : ℕ) (w w' : World) : Prop where
  rights : ∀ va', (ending w'.mem r va').1 = (ending w.mem r va').1
  apart : ∀ va', ix va' 3 ≠ ix va 3 → ending w'.mem r va' = ending w.mem r va'
  grows : ∀ f, TableOf r w.mem f → TableOf r w'.mem f
  held : ∀ q, isPageUsed w.pmm q = true → pageState w'.pmm q = pageState w.pmm q
  new : ∀ q, isPageUsed w'.pmm q = true → isPageUsed w.pmm q = true ∨ TableOf r w'.mem q
  data : ∀ f, isPageUsed w.pmm f = true → ¬TableOf r w.mem f →
    ¬TableOf r w'.mem f ∧ ∀ x, x / 4096 = f → w'.mem x = w.mem x

/-- Tables are hooked in on the path of `va`, and nothing else happens: paths that end in a page table stay. -/
structure Hooked (r va : ℕ) (w w' : World) : Prop extends Quiet r w w', Gains r va w w' where
  small : ∀ va', (ending w.mem r va').2.1 = 0 → ending w'.mem r va' = ending w.mem r va'

theorem Hooked.refl (r va : ℕ) (w : World) : Hooked r va w w :=
  ⟨.refl r w, ⟨fun _ => rfl, fun _ _ => rfl, fun _ => id, fun _ _ => rfl, fun _ => .inl, fun _ _ hf => ⟨hf, fun _ _ => rfl⟩⟩,
    fun _ _ => rfl⟩

theorem Hooked.used (h : Hooked r va w w') (hq : isPageUsed w.pmm q = true) : isPageUsed w'.pmm q = true :=
  (pageState_ext (h.held q hq)).1.trans hq

theorem Hooked.trans (h : Hooked r va w w₁) (h' : Hooked r va w₁ w') : Hooked r va w w' where
  toQuiet := h.toQuiet.trans h'.toQuiet
  rights va' := (h'.rights va').trans (h.rights va')
  small va' hsmall := by
    have hsame := h.small va' hsmall
    rw [h'.small va' (by rw [hsame]; exact hsmall), hsame]
  apart va' hne := (h'.apart va' hne).trans (h.apart va' hne)
  grows f hf := h'.grows f (h.grows f hf)
  held q hq := (h'.held q (h.used hq)).trans (h.held q hq)
  new q hq := by
    rcases h'.new q hq with hq | hq
    · exact (h.new q hq).imp_right (h'.grows q)
    · exact .inr hq
  data f hf hnot := by
    obtain ⟨hnot₁, hbytes₁⟩ := h.data f hf hnot
    obtain ⟨hnot', hbytes'⟩ := h'.data f (h.used hf) hnot₁
    exact ⟨hnot', fun x hx => (hbytes' x hx).trans (hbytes₁ x hx)⟩

/-- A table in the fresh frame `F` takes the place of an entry that led to no table, and says what the entry said. -/
theorem Mapping.graft (h : Mapping r w) (ha : Allocated w w₁ F)
    (hg : tableAt nextTable (rd w.mem) (ix va) (k + 1) 3 r = some g)
    (hold : nextTable (rd w.mem g (ix va (k + 1))) = none) (hbare : k ≠ 0 → ∀ j, nextTable (rd w₁.mem F j) = none)
    (hsame : ∀ va' p, finish va' (p, k, rd w₁.mem F (ix va' k)) = finish va' (p, k + 1, rd w.mem g (ix va (k + 1))))
    (hw' : w' = { w₁ with mem := setEntry w₁.mem (g * 4096) (ix va (k + 1)) (tableEntry (F * 4096)) }) :
    Mapping r w' ∧ Hooked r va w w' ∧ rd w'.mem g (ix va (k + 1)) = tableEntry (F * 4096) ∧
      tableAt nextTable (rd w'.mem) (ix va) (k + 1) 3 r = some g ∧
      tableAt nextTable (rd w'.mem) (ix va) k 3 r = some F := by
  have hF := h.fresh ha
  have hgF : g ≠ F := fun heq => hF (heq ▸ ⟨_, _, hg⟩)
  have hnext := nextTable_tableEntry ha.lt
  have hother : ∀ f, f ≠ g → rd w'.mem f = rd w₁.mem f := fun f hf => by
    rw [hw']
    exact rd_set_ne hf
  have hFsame : rd w'.mem F = rd w₁.mem F := hother F (Ne.symm hgF)
  have hstore : SlotStore nextTable (rd w.mem) (rd w'.mem) 3 r (k + 1) g (ix va (k + 1)) (tableEntry (F * 4096)) := by
    refine ⟨h.unshared, ⟨_, hg⟩, ?_, fun f hf hne => ?_⟩
    · rw [hw', rd_setEntry_self, ha.rd hgF]
    · rw [hother f hne, ha.rd fun heq => hF (heq ▸ hf)]
  have hbare' : k ≠ 0 → ∀ j, nextTable (rd w'.mem F j) = none := by
    rw [hFsame]
    exact hbare
  have htop : SmallTop w'.mem r := h.stored_top hstore fun _ _ => (tableEntry_bits ha.lt).2.1
  have hpmm : w'.pmm = w₁.pmm := by rw [hw']
  -- every walk goes on as before, or ends in the new table with the rights it had
  have hend : ∀ va', ending w'.mem r va' = ending w.mem r va' ∨
      (tableAt nextTable (rd w.mem) (ix va') (k + 1) 3 r = some g ∧ ix va' (k + 1) = ix va (k + 1)) ∧
        ∃ s', ending w.mem r va' = (s', k + 1, rd w.mem g (ix va (k + 1))) ∧
          ending w'.mem r va' = (s', k, rd w'.mem F (ix va' k)) := by
    intro va'
    by_cases hon : tableAt nextTable (rd w.mem) (ix va') (k + 1) 3 r = some g ∧ ix va' (k + 1) = ix va (k + 1)
    · obtain ⟨s', hs, hs'⟩ := hstore.descend_graft hold hnext hbare' hon.1 hon.2 Rights.pass (true, true, false)
      rw [pass_tableEntry ha.lt] at hs'
      exact .inr ⟨hon, s', hs, hs'⟩
    · exact .inl (hstore.descend_away hon _ _)
  refine ⟨⟨⟨hstore.unshared_graft hnext hF hbare', htop⟩, fun f hf hlt => ?_⟩,
    ⟨⟨fun va' => ?_, fun f hf => ?_⟩, ⟨fun va' => ?_, fun va' hne => ?_, fun f hf => ?_, fun q hq => ?_, fun q hq => ?_,
      fun f hf hnot => ⟨fun hf' => ?_, fun x hx => ?_⟩⟩, fun va' hsmall => ?_⟩,
    hstore.slot_on rfl, hstore.tableAt_kept hold hg, hstore.tableAt_hooked hnext hg rfl⟩
  · rw [hpmm]
    rcases hstore.isTable_graft hnext hbare' hf with hf | rfl
    · exact ha.kept (h.kept f hf hlt)
    · exact ha.used
  · rw [access_eq htop, access_eq h.top]
    rcases hend va' with hsame' | ⟨-, s', hs, hs'⟩
    · rw [hsame']
    · rw [hs, hs', hFsame]
      exact hsame va' s'
  · rcases hstore.isTable_graft hnext hbare' hf with hf | rfl
    · exact .inl hf
    · exact .inr ha.lt
  · rcases hend va' with hsame' | ⟨-, s', hs, hs'⟩
    · rw [hsame']
    · rw [hs, hs']
  · rcases hend va' with hsame' | ⟨hon, -⟩
    · exact hsame'
    · refine absurd ?_ hne
      have hle := tableAt_le hon.1
      by_cases htop' : k + 1 = 3
      · rw [← htop']
        exact hon.2
      · exact (h.unshared (ix va) (ix va') (k + 1) (k + 1) g hg hon.1).2 3 (by omega) le_rfl
  · obtain ⟨jx, l, hl⟩ := hf
    exact ⟨jx, l, hstore.tableAt_kept hold hl⟩
  · rw [hpmm, ha.pmm q, if_neg (ha.ne_of_used hq)]
  · rw [hpmm] at hq
    by_cases hqF : q = F
    · rw [hqF]
      exact .inr ⟨ix va, k, hstore.tableAt_hooked hnext hg rfl⟩
    · have hstate := congrArg Prod.fst (ha.pmm q)
      rw [if_neg hqF] at hstate
      exact .inl (hstate.symm.trans hq)
  · rcases hstore.isTable_graft hnext hbare' hf' with hf' | rfl
    · exact hnot hf'
    · exact ha.ne_of_used hf rfl
  · have hfF := ha.ne_of_used hf
    have hfg : f ≠ g := fun heq => hnot (heq ▸ ⟨_, _, hg⟩)
    rw [hw', ← ha.mem x (by omega)]
    exact setEntry_other _ _ (ix va (k + 1)).isLt (by omega)
  · rcases hend va' with hsame' | ⟨-, s', hs, hs'⟩
    · exact hsame'
    · rw [hs] at hsmall
      exact absurd hsmall (Nat.succ_ne_zero k)

/-! ### The steps of `map_page` -/

theorem Mapping.ensureTable (h : Mapping r w) (hg : tableAt nextTable (rd w.mem) (ix va) (k + 1) 3 r = some g)
    (hsmall : has (rd w.mem g (ix va (k + 1))) ptePresent = true → has (rd w.mem g (ix va (k + 1))) pteHuge = false)
    (hcall : ensureTable (g * 4096) (ix va (k + 1)) w = some (a, w')) :
    Mapping r w' ∧ Hooked r va w w' ∧
      ∃ g', a = g' * 4096 ∧ tableAt nextTable (rd w'.mem) (ix va) k 3 r = some g' := by
  obtain ⟨hp, rfl, rfl⟩ | ⟨hp, F, w₁, rfl, ha, hz, hw'⟩ := ensureTable_cases hcall
  · refine ⟨h, .refl r va _, _, (addrOf_div_mul _).symm, ?_⟩
    rw [tableAt_down hg, nextTable_some hp (hsmall hp)]
  · obtain ⟨hmap, hsame, -, -, hF⟩ := h.graft ha hg (nextTable_absent hp)
      (fun _ j => by rw [hz, nextTable_absent absent_zero])
      (fun va' p => by rw [hz, finish_absent absent_zero, finish_absent hp]) hw'
    exact ⟨hmap, hsame, F, rfl, hF⟩

theorem Mapping.splitIfHuge (h : Mapping r w) (hk : k ≤ 1)
    (hg : tableAt nextTable (rd w.mem) (ix va) (k + 1) 3 r = some g)
    (hcall : splitIfHuge (g * 4096) (ix va (k + 1)) (2 - k) w = some w') :
    Mapping r w' ∧ Hooked r va w w' ∧ tableAt nextTable (rd w'.mem) (ix va) (k + 1) 3 r = some g ∧
      (has (rd w'.mem g (ix va (k + 1))) ptePresent = true → has (rd w'.mem g (ix va (k + 1))) pteHuge = false) := by
  obtain ⟨rfl, hsmall⟩ | ⟨hboth, F, w₁, ha, rfl, hfill⟩ := splitIfHuge_cases hcall
  · exact ⟨h, .refl r va _, hg, hsmall⟩
  · obtain ⟨hmap, hsame, hentry, hstay, -⟩ := h.graft ha hg (nextTable_huge hboth.2)
      (fun hk0 j => by
        rw [hfill]
        exact nextTable_huge ((splitEntry_bits _ hk j.isLt).2.2.2 (by omega)))
      (fun va' p => by
        rw [hfill]
        exact finish_split hk hboth.1 hboth.2 va' p) rfl
    refine ⟨hmap, hsame, hstay, fun _ => ?_⟩
    rw [show rd _ g (ix va (k + 1)) = _ from hentry]
    exact (tableEntry_bits ha.lt).2.1

/-- Up to its last store `map_page` changes no translation. -/
theorem Mapping.walkDown (h : Mapping r w) {pml4 : ℕ} {flags : Flags} (hroot : resolvePml4 w pml4 = r * 4096)
    (hcall : mapPage va a flags pml4 w = some w') :
    ∃ w₀ g, Mapping r w₀ ∧ Hooked r va w w₀ ∧ tableAt nextTable (rd w₀.mem) (ix va) 0 3 r = some g ∧
      w' = { w₀ with mem := setEntry w₀.mem (g * 4096) (ix va 0) (leafEntry a flags) } := by
  have hne : r * 4096 ≠ 0 := by
    intro h0
    unfold mapPage at hcall
    simp only [hroot, h0, if_true] at hcall
    cases hcall
  unfold mapPage at hcall
  simp only [hroot, if_neg hne, pml4Idx_eq, pdptIdx_eq, pdIdx_eq, ptIdx_eq, Option.bind_eq_bind] at hcall
  obtain ⟨⟨a3, w1⟩, hc1, hcall⟩ := Option.bind_eq_some_iff.1 hcall
  obtain ⟨h1, hs1, g2, rfl, hg2⟩ := h.ensureTable (tableAt_self 3 r) (h.top _) hc1
  obtain ⟨w2, hc2, hcall⟩ := Option.bind_eq_some_iff.1 hcall
  obtain ⟨h2, hs2, hg2, hsmall2⟩ := h1.splitIfHuge le_rfl hg2 hc2
  obtain ⟨⟨a2, w3⟩, hc3, hcall⟩ := Option.bind_eq_some_iff.1 hcall
  obtain ⟨h3, hs3, g1, rfl, hg1⟩ := h2.ensureTable hg2 hsmall2 hc3
  obtain ⟨w4, hc4, hcall⟩ := Option.bind_eq_some_iff.1 hcall
  obtain ⟨h4, hs4, hg1, hsmall1⟩ := h3.splitIfHuge (Nat.zero_le _) hg1 hc4
  obtain ⟨⟨a1, w5⟩, hc5, hcall⟩ := Option.bind_eq_some_iff.1 hcall
  obtain ⟨h5, hs5, g0, rfl, hg0⟩ := h4.ensureTable hg1 hsmall1 hc5
  cases hcall
  exact ⟨w5, g0, h5, (((hs1.trans hs2).trans hs3).trans hs4).trans hs5, hg0, rfl⟩

/-! ### The leaf entry -/

theorem leafEntry_frame (a : ℕ) (flags : Flags) : leafEntry a flags = leafEntry (a / 4096 % 2 ^ 40 * 4096) flags := by
  unfold leafEntry
  congr 1
  refine BitVec.eq_of_getLsbD_eq fun i hi => ?_
  rw [BitVec.getLsbD_and, BitVec.getLsbD_and, frame_bit (Nat.mod_lt _ (by decide)) hi, addrMask_bit hi, BitVec.getLsbD_ofNat]
  by_cases hr : 12 ≤ i ∧ i < 52
  · have hbit : (a / 4096 % 2 ^ 40).testBit (i - 12) = a.testBit i := by
      rw [Nat.testBit_mod_two_pow, show a / 4096 = a / 2 ^ 12 by norm_num, Nat.testBit_div_two_pow]
      simp [show i - 12 < 40 by omega, show i - 12 + 12 = i by omega]
    rw [hbit]
    simp [hr, hi]
  · simp [hr]

theorem Mapping.leaf (h : Mapping r w) (hg : tableAt nextTable (rd w.mem) (ix va) 0 3 r = some g) (e : Entry)
    (hw' : w' = { w with mem := setEntry w.mem (g * 4096) (ix va 0) e }) :
    SlotStore nextTable (rd w.mem) (rd w'.mem) 3 r 0 g (ix va 0) e ∧ Mapping r w' ∧
      ∀ f, TableOf r w'.mem f ↔ TableOf r w.mem f := by
  subst hw'
  have hstore := h.slotStore hg e
  have htables : ∀ f, TableOf r (setEntry w.mem (g * 4096) (ix va 0) e) f ↔ TableOf r w.mem f := fun f =>
    exists_congr fun jx => exists_congr fun l => by rw [hstore.tableAt_leaf]
  exact ⟨hstore, ⟨h.dead hstore (.inl rfl), fun f hf => h.kept f ((htables f).1 hf)⟩, htables⟩

/-- The page of `va` has the entry `e`. Other addresses keep their translations. -/
structure Mapped (r va : ℕ) (e : Entry) (w w' : World) : Prop extends Gains r va w w' where
  mapping : Mapping r w'
  on : ∀ va', pageOf va' = pageOf va → ending w'.mem r va' = ((ending w.mem r va').1, 0, e)
  access : ∀ va', pageOf va' ≠ pageOf va → access w'.mem (r * 4096) va' = access w.mem (r * 4096) va'
  small : ∀ va', pageOf va' ≠ pageOf va → (ending w.mem r va').2.1 = 0 → ending w'.mem r va' = ending w.mem r va'

theorem Mapping.mapped (h : Mapping r w) {pml4 : ℕ} {flags : Flags} (hroot : resolvePml4 w pml4 = r * 4096)
    (hcall : mapPage va a flags pml4 w = some w') : Mapped r va (leafEntry a flags) w w' := by
  obtain ⟨w₀, g, hmap, hhook, hg, rfl⟩ := h.walkDown hroot hcall
  obtain ⟨hstore, hmap', htables⟩ := hmap.leaf hg (leafEntry a flags) rfl
  have hother : ∀ va', pageOf va' ≠ pageOf va →
      ending (setEntry w₀.mem (g * 4096) (ix va 0) (leafEntry a flags)) r va' = ending w₀.mem r va' :=
    fun va' hpage => hstore.descend_away (hmap.off_page hg hpage) _ _
  have hon : ∀ va', pageOf va' = pageOf va → ending (setEntry w₀.mem (g * 4096) (ix va 0) (leafEntry a flags)) r va' =
      ((ending w₀.mem r va').1, 0, leafEntry a flags) := by
    intro va' hpage
    have hix := pageOf_eq_iff.mp hpage
    have hg' : tableAt nextTable (rd w₀.mem) (ix va') 0 3 r = some g := (tableAt_path fun l _ hl => hix l hl).trans hg
    obtain ⟨p, hold, hnew⟩ := hstore.descend_dead (.inl rfl) hg' (hix 0 (by decide)) Rights.pass (true, true, false)
    have hp : (ending w₀.mem r va').1 = p := congrArg Prod.fst hold
    rw [hp]
    exact hnew
  have hpage_ix : ∀ va', ix va' 3 ≠ ix va 3 → pageOf va' ≠ pageOf va :=
    fun va' hne hpage => hne (pageOf_eq_iff.mp hpage 3 le_rfl)
  refine ⟨⟨fun va' => ?_, fun va' hne => (hother va' (hpage_ix va' hne)).trans (hhook.apart va' hne),
    fun f hf => (htables f).2 (hhook.grows f hf), hhook.held, fun q hq => (hhook.new q hq).imp_right (htables q).2,
    fun f hf hnot => ?_⟩, hmap', fun va' hpage => ?_, fun va' hpage => ?_,
    fun va' hpage hsmall => (hother va' hpage).trans (hhook.small va' hsmall)⟩
  · rw [← hhook.rights]
    by_cases hpage : pageOf va' = pageOf va
    · rw [hon va' hpage]
    · rw [hother va' hpage]
  · obtain ⟨hnot₀, hbytes⟩ := hhook.data f hf hnot
    refine ⟨fun hf' => hnot₀ ((htables f).1 hf'), fun x hx => ?_⟩
    have hfg : f ≠ g := fun heq => hnot₀ (heq ▸ ⟨_, _, hg⟩)
    rw [← hbytes x hx]
    exact setEntry_other _ _ (ix va 0).isLt (by omega)
  · rw [← hhook.rights]
    exact hon va' hpage
  · rw [← hhook.access va', access_eq hmap'.top, access_eq hmap.top]
    exact congrArg (finish va') (hother va' hpage)

/-- `map_page` gives the page of `va` its translation and leaves every other address alone. -/
theorem mapPage_exact {pa pml4 : ℕ} {flags : Flags} (htree : PageTables r w.mem)
    (hkept : ∀ f, TableOf r w.mem f → f < maxManagedPages → isPageUsed w.pmm f = true)
    (hroot : resolvePml4 w pml4 = r * 4096) (hpresent : flags.present = true)
    (hcall : mapPage va pa flags pml4 w = some w') :
    smallEntry w'.mem (r * 4096) va = some ((BitVec.ofNat 64 pa &&& pteAddrMask) ||| flags.toEntry) ∧
    (∀ va', pageOf va' = pageOf va →
      ∃ a, access w'.mem (r * 4096) va' = some a ∧ a.phys = pa / 4096 % 2 ^ 40 * 4096 + va' % 4096) ∧
    ∀ va', pageOf va' ≠ pageOf va → access w'.mem (r * 4096) va' = access w.mem (r * 4096) va' := by
  have hmapped := Mapping.mapped ⟨htree, hkept⟩ hroot hcall
  obtain ⟨hp, -, -, haddr⟩ := leafEntry_bits flags (Nat.mod_lt (pa / 4096) (by decide : 0 < 2 ^ 40))
  rw [← leafEntry_frame] at hp haddr
  rw [hpresent] at hp
  have htop := hmapped.mapping.top
  refine ⟨?_, fun va' hpage => ?_, hmapped.access⟩
  · rw [smallEntry_eq htop, hmapped.on va rfl, if_pos ⟨rfl, hp⟩]
    rfl
  · rw [access_eq htop, hmapped.on va' hpage, finish_small hp]
    exact ⟨_, rfl, congrArg (fun x => x + va' % 4096) haddr⟩

theorem mapping_blank : Mapping 0x100 ⟨pagesTaken 0, fun _ => 0, 0x100 * 4096⟩ ∧
    Held 0x100 ⟨pagesTaken 0, fun _ => 0, 0x100 * 4096⟩ := by
  have hbare : ∀ i, nextTable (rd (fun _ => 0) 0x100 i) = none := fun i => nextTable_absent absent_zero
  have honly : ∀ f, TableOf 0x100 (fun _ => 0) f → f = 0x100 := fun f ⟨_, _, hf⟩ => (tableAt_bare hbare hf).2
  refine ⟨⟨⟨unshared_bare hbare, fun i hi => ?_⟩, fun f hf _ => ?_⟩, fun f hf hne => absurd (honly f hf) hne⟩
  · rw [show rd (fun _ => 0) 0x100 i = 0 from rfl, absent_zero] at hi
    cases hi
  · rw [honly f hf]
    decide +kernel

/-- The first page of the kernel half, in an empty PML4. -/
theorem mapPage_first : ∃ w', mapPage halfStart 0x8000 kernelFlags 0 ⟨pagesTaken 0, fun _ => 0, 0x100 * 4096⟩ = some w' ∧
    (∀ va', pageOf va' = pageOf halfStart →
      ∃ a, access w'.mem (0x100 * 4096) va' = some a ∧ a.phys = 0x8000 + va' % 4096) ∧
    ∀ va', pageOf va' ≠ pageOf halfStart →
      access w'.mem (0x100 * 4096) va' = access (fun _ => 0) (0x100 * 4096) va' := by
  obtain ⟨htree, hkept⟩ := mapping_blank.1
  have hcall := map_small (n := 0) (by decide)
  obtain ⟨-, hpage, hothers⟩ := mapPage_exact htree hkept rfl rfl hcall
  exact ⟨_, hcall, hpage, hothers⟩

end Tori.Vmm
