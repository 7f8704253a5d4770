import Tori.Sanity.Vmm
import Tori.Spec.PageTables

/-! The walk of the processor as a descent through the tree. -/

namespace Tori.Vmm

open RadixWalk Function

variable {m : Mem} {r va va' k f : ℕ} {e : Entry}

variable {p : Rights}

/-- Writable, user and no-execute so far. -/
abbrev Rights : Type := Bool × Bool × Bool

def Rights.pass (p : Rights) (e : Entry) : Rights :=
  (p.1 && has e pteWritable, p.2.1 && has e pteUser, p.2.2 || has e pteNoExecute)

/-- The last entry of a walk maps a page of `2 ^ (12 + 9 k)` bytes, or nothing. -/
def finish (va : ℕ) (z : Rights × ℕ × Entry) : Option Access :=
  if has z.2.2 ptePresent && (z.2.1 == 0 || has z.2.2 pteHuge) then
    some ⟨addrOf z.2.2 / 2 ^ (12 + 9 * z.2.1) * 2 ^ (12 + 9 * z.2.1) + va % 2 ^ (12 + 9 * z.2.1),
      (z.1.pass z.2.2).1, (z.1.pass z.2.2).2.1, (z.1.pass z.2.2).2.2⟩
  else none

def ending (m : Mem) (r va : ℕ) : Rights × ℕ × Entry :=
  descend nextTable (rd m) (ix va) Rights.pass 3 r (true, true, false)

theorem nextTable_absent (h : has e ptePresent = false) : nextTable e = none := by
  simp [nextTable, h]

theorem nextTable_huge (h : has e pteHuge = true) : nextTable e = none := by
  simp [nextTable, h]

theorem nextTable_some (hp : has e ptePresent = true) (hh : has e pteHuge = false) : nextTable e = some (addrOf e / 4096) := by
  simp [nextTable, hp, hh]

theorem nextTable_tableEntry (hf : f < Pmm.maxManagedPages) : nextTable (tableEntry (f * 4096)) = some f := by
  obtain ⟨hp, hh, -, -, ha⟩ := tableEntry_bits hf
  rw [nextTable_some hp hh, ha, Nat.mul_div_cancel _ (by decide)]

theorem finish_absent (h : has e ptePresent = false) : finish va (p, k, e) = none := by
  simp [finish, h]

theorem finish_huge (hp : has e ptePresent = true) (hh : has e pteHuge = true) :
    finish va (p, k, e) = some ⟨addrOf e / 2 ^ (12 + 9 * k) * 2 ^ (12 + 9 * k) + va % 2 ^ (12 + 9 * k),
      (p.pass e).1, (p.pass e).2.1, (p.pass e).2.2⟩ := by
  simp [finish, hp, hh]

theorem finish_small (hp : has e ptePresent = true) :
    finish va (p, 0, e) = some ⟨addrOf e + va % 2 ^ 12, (p.pass e).1, (p.pass e).2.1, (p.pass e).2.2⟩ := by
  have h := addrOf_div_mul e
  simp [finish, hp, h]

theorem rd_addrOf (e : Entry) (i : Fin 512) : entry m (addrOf e) i = rd m (addrOf e / 4096) i := by
  rw [rd, addrOf_div_mul]

theorem descend_slot (d f : ℕ) (p : Rights) :
    descend nextTable (rd m) (ix va) Rights.pass (d + 1) f p =
      if has (rd m f (ix va (d + 1))) ptePresent && !has (rd m f (ix va (d + 1))) pteHuge then
        descend nextTable (rd m) (ix va) Rights.pass d (addrOf (rd m f (ix va (d + 1))) / 4096)
          (p.pass (rd m f (ix va (d + 1))))
      else (p, d + 1, rd m f (ix va (d + 1))) := by
  rw [descend, nextTable]
  cases has (rd m f (ix va (d + 1))) ptePresent && !has (rd m f (ix va (d + 1))) pteHuge <;> rfl

/-- Bit 7 is not set in the PML4. -/
abbrev SmallTop (m : Mem) (r : ℕ) : Prop := ∀ i, has (rd m r i) ptePresent = true → has (rd m r i) pteHuge = false

theorem finish_slot (d f : ℕ) (p : Rights) :
    finish va (descend nextTable (rd m) (ix va) Rights.pass (d + 1) f p) =
      if !has (rd m f (ix va (d + 1))) ptePresent then none
      else if has (rd m f (ix va (d + 1))) pteHuge then finish va (p, d + 1, rd m f (ix va (d + 1)))
      else finish va (descend nextTable (rd m) (ix va) Rights.pass d (addrOf (rd m f (ix va (d + 1))) / 4096)
        (p.pass (rd m f (ix va (d + 1))))) := by
  rw [descend_slot]
  cases hp : has (rd m f (ix va (d + 1))) ptePresent with
  | false => exact finish_absent hp
  | true => cases has (rd m f (ix va (d + 1))) pteHuge <;> rfl

theorem access_eq (htop : SmallTop m r) : access m (r * 4096) va = finish va (ending m r va) := by
  have htop := htop (ix va 3)
  unfold access ending
  simp only [pml4Idx_eq, pdptIdx_eq, pdIdx_eq, ptIdx_eq, ← rd.eq_def, rd_addrOf]
  rw [finish_slot, finish_slot, finish_slot]
  cases h4 : has (rd m r (ix va 3)) ptePresent with
  | false => rfl
  | true =>
    rw [htop h4]
    simp only [Bool.not_true, Bool.false_eq_true, if_false]
    split_ifs with h3 hh3 h2 hh2 h1
    · rfl
    · rw [finish_huge (by simpa using h3) hh3]
      rfl
    · rfl
    · rw [finish_huge (by simpa using h2) hh2]
      rfl
    · rw [descend, finish_absent (by simpa using h1)]
    · rw [descend, finish_small (by simpa using h1)]
      rfl

theorem smallEntry_eq (htop : SmallTop m r) : smallEntry m (r * 4096) va =
      if (ending m r va).2.1 = 0 ∧ has (ending m r va).2.2 ptePresent = true then some (ending m r va).2.2 else none := by
  have htop := htop (ix va 3)
  unfold smallEntry ending
  simp only [pml4Idx_eq, pdptIdx_eq, pdIdx_eq, ptIdx_eq, ← rd.eq_def, rd_addrOf]
  rw [descend_slot]
  generalize rd m r (ix va 3) = e4 at htop ⊢
  cases h4 : has e4 ptePresent with
  | false => simp
  | true =>
    simp only [htop h4, Bool.not_true, Bool.false_eq_true, if_false, Bool.not_false, Bool.and_true, if_true]
    rw [descend_slot]
    generalize rd m (addrOf e4 / 4096) (ix va 2) = e3
    cases h3 : has e3 ptePresent <;> cases hh3 : has e3 pteHuge <;> simp [descend_slot]
    generalize rd m (addrOf e3 / 4096) (ix va 1) = e2
    cases h2 : has e2 ptePresent <;> cases hh2 : has e2 pteHuge <;> simp [descend]

theorem pageOf_eq_iff : pageOf va' = pageOf va ↔ ∀ l ≤ 3, ix va' l = ix va l := by
  unfold pageOf
  constructor
  · intro h l hl
    rw [Fin.ext_iff]
    unfold ix
    interval_cases l <;> norm_num <;> omega
  · intro h
    have h0 := Fin.ext_iff.1 (h 0 (by omega))
    have h1 := Fin.ext_iff.1 (h 1 (by omega))
    have h2 := Fin.ext_iff.1 (h 2 (by omega))
    have h3 := Fin.ext_iff.1 (h 3 (by omega))
    simp only [ix] at h0 h1 h2 h3
    norm_num at h0 h1 h2 h3
    omega

theorem exists_va (jx : ℕ → Fin 512) : ∃ va, ∀ l ≤ 3, ix va l = jx l := by
  refine ⟨jx 0 * 2 ^ 12 + jx 1 * 2 ^ 21 + jx 2 * 2 ^ 30 + jx 3 * 2 ^ 39, fun l hl => ?_⟩
  rw [Fin.ext_iff]
  unfold ix
  interval_cases l <;> norm_num <;> omega

/-! ### Stores to the tree -/

namespace PageTables

variable {m' : Mem} {g : ℕ} {i : Fin 512}

theorem slotStore (h : PageTables r m) (hg : tableAt nextTable (rd m) (ix va) k 3 r = some g) (e : Entry) :
    SlotStore nextTable (rd m) (rd (setEntry m (g * 4096) (ix va k) e)) 3 r k g (ix va k) e :=
  ⟨h.unshared, ⟨_, hg⟩, rd_setEntry_self _ _ _ _, fun _ _ => rd_set_ne⟩

theorem stored_top (h : PageTables r m) (hst : SlotStore nextTable (rd m) (rd m') 3 r k g i e)
    (he : k = 3 → has e ptePresent = true → has e pteHuge = false) : SmallTop m' r := by
  intro j hj
  obtain ⟨jx, hjx⟩ := hst.reach
  by_cases hrg : r = g
  · subst hrg
    obtain ⟨hk, -⟩ := h.unshared jx jx k 3 r hjx (tableAt_self 3 r)
    rw [hst.self] at hj ⊢
    by_cases hji : j = i
    · rw [hji, update_self] at hj ⊢
      exact he hk hj
    · rw [update_of_ne hji] at hj ⊢
      exact h.top j hj
  · rw [hst.other r ⟨jx, 3, tableAt_self 3 r⟩ hrg] at hj ⊢
    exact h.top j hj

/-- A store that hooks nothing in. -/
theorem dead (h : PageTables r m) (hst : SlotStore nextTable (rd m) (rd m') 3 r k g i e)
    (hdead : k = 0 ∨ has e ptePresent = false) : PageTables r m' := by
  refine ⟨hst.unshared_dead (hdead.imp_right nextTable_absent), h.stored_top hst fun hk hp => ?_⟩
  rcases hdead with rfl | habs
  · cases hk
  · rw [habs] at hp
    cases hp

/-- The slot of a page is on no other page's path. -/
theorem off_page (h : PageTables r m) (hg : tableAt nextTable (rd m) (ix va) 0 3 r = some g)
    (hpage : pageOf va' ≠ pageOf va) : ¬(tableAt nextTable (rd m) (ix va') 0 3 r = some g ∧ ix va' 0 = ix va 0) := by
  rintro ⟨hg', hix⟩
  refine hpage (pageOf_eq_iff.mpr fun l hl => ?_)
  rcases Nat.eq_zero_or_pos l with rfl | hpos
  · exact hix
  · exact (h.unshared (ix va) (ix va') 0 0 g hg hg').2 l hpos hl

end PageTables

end Tori.Vmm
