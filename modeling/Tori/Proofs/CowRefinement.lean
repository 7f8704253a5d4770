import Tori.Proofs.FrameAccounting

/-! Copy-on-write sharing refines deep copies. `Sim` relates the page tables to the reference
memory: mapped pages hold the reference bytes, a page mapped writable is writable or marked
copy-on-write, and a frame behind a writable entry has no other mapping. The last part is
what makes a store invisible to every other space. -/

namespace Tori.Vmm

open Loop Pmm Radix Function

variable {m : Mem} {r : Option RefPage} {e e' : Entry} {p va src dst : ℕ} {s : Sys} {base : ℕ → Bool × ℕ}

def PageMatch (m : Mem) : Option Entry → Option RefPage → Prop
  | none, none => True
  | some e, some pg =>
    (∀ off, off < 4096 → m (addrOf e + off) = pg.bytes off) ∧
      (pg.writable = true → has e pteWritable = true ∨ has e pteCow = true) ∧
      (pg.user = true → has e pteUser = true)
  | _, _ => False

structure Sim (s : Sys) : Prop where
  page : ∀ p ∈ s.live, ∀ va ≤ userLimit,
    PageMatch s.world.mem (lookup s.world.mem p va) (s.ref p (va / 4096))
  owned : ∀ p ∈ s.live, ∀ va ≤ userLimit, ∀ e, lookup s.world.mem p va = some e →
    has e pteWritable = true → leaves s.world.mem s.live (addrOf e / 4096) = 1

theorem PageMatch.congr {m' : Mem} {o : Option Entry} (h : PageMatch m o r)
    (hm : ∀ e, o = some e → ∀ x, x / 4096 = addrOf e / 4096 → m' x = m x) : PageMatch m' o r := by
  rcases o with _ | e <;> rcases r with _ | pg
  · trivial
  · exact h
  · exact h
  · refine ⟨fun off hoff => ?_, h.2⟩
    have hmod := addrOf_mod e
    rw [hm e rfl (addrOf e + off) (by omega)]
    exact h.1 off hoff

theorem PageMatch.mark (h : PageMatch m (some e) r) :
    PageMatch m (some (markCow e)) r := by
  obtain ⟨-, hU, -, hA, hC⟩ := markCow_bits e
  rcases r with _ | pg
  · exact h
  · obtain ⟨h1, h2, h3⟩ := h
    refine ⟨by rw [hA]; exact h1, fun hw => .inr ?_, by rw [hU]; exact h3⟩
    rw [hC, Bool.or_eq_true]
    exact (h2 hw).symm

theorem lookup_same_page {va' : ℕ} (hva : va ≤ userLimit) (hva' : va' ≤ userLimit)
    (heq : va' / 4096 = va / 4096) : lookup m p va' = lookup m p va := by
  have hix := (same_page_iff hva hva').2 heq
  rw [lookup, lookup, leafAt_congr fun l hl => ?_]
  rcases Nat.eq_zero_or_pos l with rfl | hpos
  · exact hix.2
  · exact hix.1 l hpos (by omega)

section Step

variable {base : ℕ → Bool × ℕ} {w w' : World} {live : Finset ℕ} {ref : ℕ → ℕ → Option RefPage}

theorem two_leaves {p' va' : ℕ} (hp : p ∈ live) (hp' : p' ∈ live)
    (hva : va ≤ userLimit) (hva' : va' ≤ userLimit) (hl : lookup w.mem p va = some e)
    (hl' : lookup w.mem p' va' = some e') (hne : ¬ (p' = p ∧ va' / 4096 = va / 4096))
    (hq : addrOf e' / 4096 = addrOf e / 4096) : 2 ≤ leaves w.mem live (addrOf e / 4096) := by
  set q := addrOf e / 4096 with hqdef
  obtain ⟨hleaf, hP⟩ := Option.filter_eq_some_iff.1 hl
  obtain ⟨hleaf', hP'⟩ := Option.filter_eq_some_iff.1 hl'
  have hr : refs q e = 1 := by rw [refs_present hP, if_pos rfl]
  have hr' : refs q e' = 1 := by rw [refs_present hP', if_pos hq]
  by_cases hpp : p' = p
  · subst hpp
    have h1 := leafAt_pair_le (refs q) (refs_absent absent_zero) hleaf hleaf' fun hsame =>
      hne ⟨rfl, (same_page_iff hva hva').1 hsame⟩
    have h2 : cnt (refs q) (tree w.mem p') ≤ leaves w.mem live q := cnt_le_leaves hp
    omega
  · have h1 : refs q e ≤ cnt (refs q) (tree w.mem p) := leafAt_le _ hleaf
    have h2 : refs q e' ≤ cnt (refs q) (tree w.mem p') := leafAt_le _ hleaf'
    have h3 : cnt (refs q) (tree w.mem p) + cnt (refs q) (tree w.mem p') ≤ leaves w.mem live q := by
      rw [leaves, ← Finset.sum_pair (Ne.symm hpp) (f := fun p => cnt (refs q) (tree w.mem p))]
      refine Finset.sum_le_sum_of_subset fun x hx => ?_
      rcases Finset.mem_insert.1 hx with rfl | hx
      · exact hp
      · rw [Finset.mem_singleton.1 hx]; exact hp'
    omega

theorem Sim.create (hs : Sim ⟨w, live, ref⟩) (h : Inv base w live) {pml4 : ℕ}
    (hcall : createUserPml4 w = (pml4, w')) (hok : pml4 ≠ 0) :
    Sim ⟨w', insert pml4 live, update ref pml4 fun _ => none⟩ := by
  obtain ⟨f', ha, -, hnew, hleaves, hnone⟩ := h.create hcall hok
  have hlookup : ∀ p ∈ live, ∀ va, lookup w'.mem p va = lookup w.mem p va := fun p hp va => by
    rw [lookup, tree_same hp fun g hg => h.rd_allocated ha hg, lookup]
  refine ⟨fun p hp va hva => ?_, fun p hp va hva e hl hw => ?_⟩
  · rcases Finset.mem_insert.1 hp with rfl | hp
    · dsimp only
      rw [hnone va, update_self]
      trivial
    · dsimp only
      rw [hlookup p hp va, update_of_ne (ne_of_mem_of_not_mem hp hnew)]
      refine (hs.page p hp va hva).congr fun e he x hx => ha.mem x fun hxf => ?_
      have hu := (h.mapped hp he).2.2.2
      rw [← hx, hxf, ha.free] at hu
      exact Bool.noConfusion hu
  · rcases Finset.mem_insert.1 hp with rfl | hp
    · rw [hnone va] at hl
      exact absurd hl (by simp)
    · rw [hlookup p hp va] at hl
      rw [hleaves]
      exact hs.owned p hp va hva e hl hw

theorem filter_map_mark {o : Option Entry} {φ : Entry → Entry}
    (h1 : ∀ e, has e ptePresent = true → φ e = markCow e)
    (h2 : ∀ e, has e ptePresent = false → has (φ e) ptePresent = false) :
    (o.map φ).filter (fun e => has e ptePresent) =
      (o.filter fun e => has e ptePresent).map markCow := by
  rcases o with _ | e
  · rfl
  · cases hP : has e ptePresent with
    | false => simp [Option.filter, hP, h2 e hP]
    | true => simp [Option.filter, hP, h1 e hP, (markCow_bits e).1]

section

variable (he : CloneEffect w w' live src dst)
include he

theorem CloneEffect.lookup_source (va : ℕ) : lookup w'.mem src va = (lookup w.mem src va).map markCow := by
  rw [lookup, he.source, leafAt_mapLeaf, lookup]
  refine filter_map_mark (fun e hP => by simp [markLeaf, hP]) fun e hP => ?_
  simp [markLeaf, hP]

theorem CloneEffect.lookup_copy (va : ℕ) : lookup w'.mem dst va = (lookup w.mem src va).map markCow := by
  rw [lookup, he.cloned.copy.leafAt, lookup]
  refine filter_map_mark (fun e hP => by simp [copyLeaf, hP]) fun e hP => ?_
  rw [copyLeaf, hP]
  exact absent_zero

/-- No byte changes in a frame that is in use and holds no page table. -/
theorem CloneEffect.bytes (hsrc : src ∈ live) {x : ℕ}
    (ht : tables w.mem live (x / 4096) = 0) (hu : isPageUsed w.pmm (x / 4096) = true) : w'.mem x = w.mem x := by
  have h1 : own (x / 4096) (tree w.mem src) ≤ tables w.mem live (x / 4096) := own_le_tables hsrc
  exact he.cloned.mem x (by omega) (he.cloned.not_own_of_used hu)

end

/-- The other pages of a reference memory in which one page is replaced. -/
theorem update_page_ne {q q' p' : ℕ} (hpp : ¬(p' = p ∧ q' = q)) :
    update ref p (update (ref p) q r) p' q' = ref p' q' := by
  by_cases hp : p' = p
  · subst hp
    rw [update_self, update_of_ne fun hq => hpp ⟨rfl, hq⟩]
  · rw [update_of_ne hp]

section

variable (hs : Sim ⟨w, live, ref⟩) (h : Inv base w live)
include hs h

theorem Sim.clone (hsrc : src ∈ live) (he : CloneEffect w w' live src dst) :
    Sim ⟨w', insert dst live, update ref dst (ref src)⟩ := by
  have hmarked := he.lookup_source
  have hcopied := he.lookup_copy
  have hother : ∀ p ∈ live, p ≠ src → ∀ va, lookup w'.mem p va = lookup w.mem p va :=
    fun p hp hne va => by rw [lookup, he.others p hp hne, lookup]
  have hbytes : ∀ p ∈ live, ∀ va e, lookup w.mem p va = some e → ∀ x, x / 4096 = addrOf e / 4096 →
      w'.mem x = w.mem x := by
    intro p hp va e hl x hx
    obtain ⟨-, -, ht, hu⟩ := h.mapped hp hl
    rw [← hx] at ht hu
    exact he.bytes hsrc ht hu
  have hmatch : ∀ va ≤ userLimit,
      PageMatch w'.mem ((lookup w.mem src va).map markCow) (ref src (va / 4096)) := by
    intro va hva
    have h1 := (hs.page src hsrc va hva).congr (hbytes src hsrc va)
    cases hl : lookup w.mem src va with
    | none => rw [hl] at h1; exact h1
    | some e => rw [hl] at h1; exact h1.mark
  refine ⟨fun p hp va hva => ?_, fun p hp va hva e hl hw => ?_⟩
  · dsimp only
    rcases Finset.mem_insert.1 hp with rfl | hp
    · rw [hcopied, update_self]
      exact hmatch va hva
    · rw [update_of_ne (ne_of_mem_of_not_mem hp he.new)]
      by_cases hps : p = src
      · rw [hps, hmarked]; exact hmatch va hva
      · rw [hother p hp hps]
        exact (hs.page p hp va hva).congr (hbytes p hp va)
  · have hno : ∀ va, (lookup w.mem src va).map markCow ≠ some e := by
      intro va hc
      obtain ⟨e₀, -, rfl⟩ := Option.map_eq_some_iff.1 hc
      rw [(markCow_bits e₀).2.2.1] at hw
      exact Bool.noConfusion hw
    rcases Finset.mem_insert.1 hp with rfl | hp
    · exact absurd (hcopied va ▸ hl) (hno va)
    · by_cases hps : p = src
      · exact absurd (hmarked va ▸ hps ▸ hl) (hno va)
      · rw [hother p hp hps] at hl
        have hone := hs.owned p hp va hva e hl hw
        dsimp only at hone
        -- the only leaf for this frame is not in the source tree
        set q := addrOf e / 4096
        obtain ⟨hleaf, hP⟩ := Option.filter_eq_some_iff.1 hl
        have h1 : refs q e ≤ cnt (refs q) (tree w.mem p) := leafAt_le _ hleaf
        rw [refs_present hP, if_pos rfl] at h1
        have h2 := Finset.sum_le_sum_of_subset (f := fun p => cnt (refs q) (tree w.mem p))
          (show ({p, src} : Finset ℕ) ⊆ live from fun x hx => by
            rcases Finset.mem_insert.1 hx with rfl | hx
            · exact hp
            · rw [Finset.mem_singleton.1 hx]; exact hsrc)
        rw [Finset.sum_pair hps] at h2
        change _ ≤ leaves w.mem live q at h2
        rw [(Inv.clone_counts he q).2]
        omega

/-- A single leaf entry changes: a new mapping or a resolved fault. -/
theorem Sim.pointUpdate (hva : va ≤ userLimit) (hu : PointUpdate live w w' p va e')
    (hmatch : PageMatch w'.mem (some e') r)
    (hown : has e' pteWritable = true → leaves w'.mem live (addrOf e' / 4096) = 1)
    (hothers : ∀ q, q ≠ addrOf e' / 4096 → leaves w.mem live q = 1 → leaves w'.mem live q = 1)
    (hfresh : ∀ p' ∈ live, ∀ va' ≤ userLimit, ¬ (p' = p ∧ va' / 4096 = va / 4096) → ∀ e,
      lookup w.mem p' va' = some e → has e pteWritable = true → addrOf e / 4096 ≠ addrOf e' / 4096) :
    Sim ⟨w', live, update ref p (update (ref p) (va / 4096) r)⟩ := by
  have hsame : ∀ va', va' ≤ userLimit → va' / 4096 = va / 4096 →
      lookup w'.mem p va' = some e' := by
    intro va' hva' heq
    rw [lookup_same_page hva hva' heq, hu.lookup_self]
  refine ⟨fun p' hp' va' hva' => ?_, fun p' hp' va' hva' e hl hw => ?_⟩
  · dsimp only
    by_cases hpp : p' = p ∧ va' / 4096 = va / 4096
    · obtain ⟨rfl, heq⟩ := hpp
      rw [hsame va' hva' heq, update_self, heq, update_self]
      exact hmatch
    · rw [hu.lookup_other hva p' hp' va' hva' hpp]
      rw [update_page_ne hpp]
      refine (hs.page p' hp' va' hva').congr fun e he x hx => ?_
      obtain ⟨-, -, ht, hused⟩ := h.mapped hp' he
      exact hu.data _ hused ht x hx
  · by_cases hpp : p' = p ∧ va' / 4096 = va / 4096
    · obtain ⟨rfl, heq⟩ := hpp
      rw [hsame va' hva' heq] at hl
      cases hl
      exact hown hw
    · rw [hu.lookup_other hva p' hp' va' hva' hpp] at hl
      exact hothers _ (hfresh p' hp' va' hva' hpp e hl hw) (hs.owned p' hp' va' hva' e hl hw)

theorem Sim.map (hb : IsBase base) {F : ℕ}
    (hp : p ∈ live) (hva : va ≤ userLimit) (hun : lookup w.mem p va = none) {w₁ : World}
    (ha : Allocated w w₁ F) {content : ℕ → BitVec 8}
    (hcontent : ∀ x, x / 4096 = F → w₁.mem x = content (x % 4096)) {flags : Flags}
    (hflags : flags.present = true) (hcall : mapPage va (F * 4096) flags p w₁ = some w') :
    Sim ⟨w', live, update ref p (update (ref p) (va / 4096)
      (some ⟨content, flags.writable, flags.user⟩))⟩ := by
  obtain ⟨-, hu, hbytes, hleaves⟩ := h.mapFresh hb hp hva hun ha hflags hcall
  obtain ⟨-, hW, hU, hA⟩ := leafEntry_bits flags (lt_trans ha.lt (by decide : maxManagedPages < 2 ^ 40))
  obtain ⟨-, hl0, -⟩ := h.free_of_unused ha.free
  have hdiv : addrOf (leafEntry (F * 4096) flags) / 4096 = F := by
    rw [hA]; exact Nat.mul_div_cancel _ (by decide)
  refine hs.pointUpdate h hva hu ⟨fun off hoff => ?_, fun hw => .inl (hW.trans hw), fun hw => hU.trans hw⟩
    (fun _ => ?_) (fun q hq h1 => ?_) (fun p' hp' va' hva' _ e hl hw => ?_)
  · rw [hA, hbytes _ (by omega), hcontent _ (by omega)]
    congr 1
    omega
  · rw [hdiv, hleaves, hl0, if_pos rfl]
  · rw [hdiv] at hq
    rw [hleaves, if_neg (Ne.symm hq), h1]
  · rw [hdiv]
    intro hc
    have := (h.mapped hp' hl).2.1
    rw [hc, hl0] at this
    exact lt_irrefl 0 this

theorem Sim.resolved (hp : p ∈ live)
    (hva : va ≤ userLimit) (hr : Resolved live w w' p va e e') : Sim ⟨w', live, ref⟩ := by
  have hpage := hs.page p hp va hva
  dsimp only at hpage
  rw [hr.was] at hpage
  obtain ⟨pg, hpg⟩ : ∃ pg, ref p (va / 4096) = some pg := by
    cases hc : ref p (va / 4096) with
    | none => rw [hc] at hpage; exact hpage.elim
    | some pg => exact ⟨pg, rfl⟩
  rw [hpg] at hpage
  have hres := hs.pointUpdate h hva hr.update (r := some pg)
    ⟨fun off hoff => (hr.bytes off hoff).trans (hpage.1 off hoff), fun _ => .inl hr.writable,
      fun hw => hr.user.trans (hpage.2.2 hw)⟩ (fun _ => hr.alone) hr.others
    fun p' hp' va' hva' hne e₀ hl hw => ?_
  · rwa [← hpg, update_eq_self, update_eq_self] at hres
  · intro hc
    rcases hr.frame with ⟨h1, h2⟩ | h1
    · have h3 := two_leaves hp hp' hva hva' hr.was hl hne (hc.trans h1)
      omega
    · have h3 := (h.mapped hp' hl).2.1
      rw [hc] at h3
      omega

/-- A store through a writable entry is seen by its own page only. -/
theorem Sim.store (hp : p ∈ live)
    (hva : va ≤ userLimit) (hl : lookup w.mem p va = some e) (hw : has e pteWritable = true)
    {pg : RefPage} (hpg : ref p (va / 4096) = some pg) (b : BitVec 8) :
    Sim ⟨{ w with mem := w.mem.store8 (addrOf e + va % 4096) b }, live,
      update ref p (update (ref p) (va / 4096) (some (pg.write (va % 4096) b)))⟩ := by
  set x := addrOf e + va % 4096 with hx
  have hmod := addrOf_mod e
  have hxf : x / 4096 = addrOf e / 4096 := by omega
  obtain ⟨-, -, htab, -⟩ := h.mapped hp hl
  obtain ⟨-, htree⟩ := h.store (by rw [hxf]; exact htab)
  have hlookup : ∀ p ∈ live, ∀ va, lookup (w.mem.store8 x b) p va = lookup w.mem p va :=
    fun p hp va => by rw [lookup, htree p hp, lookup]
  have hleaves : ∀ q, leaves (w.mem.store8 x b) live q = leaves w.mem live q := fun q =>
    Finset.sum_congr rfl fun p hp => by rw [htree p hp]
  have hone := hs.owned p hp va hva e hl hw
  refine ⟨fun p' hp' va' hva' => ?_, fun p' hp' va' hva' e' hl' hw' => ?_⟩
  · dsimp only
    rw [hlookup p' hp' va']
    by_cases hpp : p' = p ∧ va' / 4096 = va / 4096
    · obtain ⟨rfl, heq⟩ := hpp
      have hpage := hs.page p' hp va hva
      dsimp only at hpage
      rw [hl, hpg] at hpage
      rw [lookup_same_page hva hva' heq, hl, update_self, heq, update_self]
      refine ⟨fun off hoff => ?_, hpage.2⟩
      unfold Mem.store8 RefPage.write
      dsimp only
      by_cases ho : off = va % 4096
      · rw [ho, update_self, update_self]
      · rw [update_of_ne (by omega), update_of_ne ho]
        exact hpage.1 off hoff
    · rw [update_page_ne hpp]
      refine (hs.page p' hp' va' hva').congr fun e' he' y hy => update_of_ne ?_ _ _
      -- another mapping of the frame would make two leaf entries
      rintro rfl
      have h2 := two_leaves hp hp' hva hva' hl he' hpp (by rw [← hy, hxf])
      dsimp only at hone
      omega
  · rw [hlookup p' hp' va'] at hl'
    rw [hleaves]
    exact hs.owned p' hp' va' hva' e' hl' hw'

theorem Sim.free (hb : IsBase base) (hp : p ∈ live) :
    Sim ⟨freeAddressSpace p w, live.erase p, update ref p fun _ => none⟩ := by
  obtain ⟨hmem, h'⟩ := h.free hb hp
  refine ⟨fun p' hp' va hva => ?_, fun p' hp' va hva e hl hw => ?_⟩
  · dsimp only
    rw [hmem, update_of_ne (Finset.ne_of_mem_erase hp')]
    exact hs.page p' (Finset.mem_of_mem_erase hp') va hva
  · have hpos := (h'.mapped hp' hl).2.1
    dsimp only at hl hpos ⊢
    rw [hmem] at hl hpos ⊢
    have hone := hs.owned p' (Finset.mem_of_mem_erase hp') va hva e hl hw
    have hle : leaves w.mem (live.erase p) (addrOf e / 4096) ≤ leaves w.mem live (addrOf e / 4096) :=
      Finset.sum_le_sum_of_subset (Finset.erase_subset p live)
    dsimp only at hone
    omega

end

end Step

/-- Faults are reported at user addresses. -/
def userFaults (_ : Sys) : Action → Prop
  | .fault _ va _ => va ≤ userLimit
  | _ => True

theorem Sim.step (hb : IsBase base) {s' : Sys} {a : Action} (hs : Sim s)
    (h : Inv base s.world s.live) (ha : userFaults s a) (hstep : Step s a s') : Sim s' := by
  cases hstep with
  | create hcall hok => exact hs.create h hcall hok
  | map hlive hva hun hpresent halloc hok hcall =>
    obtain ⟨F, rfl, hF, hcontent⟩ := filled halloc hok _
    exact hs.map h hb hlive hva (h.walk_none hlive (pml4Idx_user hva) hun) hF hcontent hpresent hcall
  | clone hlive hcall hok => exact hs.clone h hlive (h.cloneEffect hb hlive hcall hok).2
  | @write w w' live ref p va b pg hlive hva hpg hwr hcall =>
    obtain ⟨w₁, hw₁, htry⟩ := userWrite_cases hcall
    obtain ⟨hs₁, h₁⟩ : Sim ⟨w₁, live, ref⟩ ∧ Inv base w₁ live := by
      rcases hw₁ with rfl | hf
      · exact ⟨hs, h⟩
      · rcases h.fault hb hlive (pml4Idx_user hva) hf with ⟨hc, -⟩ | ⟨-, hinv, e, e', hr⟩
        · exact absurd hc (by decide)
        · exact ⟨hs.resolved h hlive hva hr, hinv⟩
    obtain ⟨e, hl, hw, -, rfl⟩ := h₁.tryWrite hlive (pml4Idx_user hva) htry
    exact hs₁.store h₁ hlive hva hl hw hpg b
  | fault hlive hcall =>
    rcases h.fault hb hlive (pml4Idx_user ha) hcall with ⟨-, rfl⟩ | ⟨-, -, e, e', hr⟩
    · exact hs
    · exact hs.resolved h hlive ha hr
  | free hlive => exact hs.free h hb hlive

theorem Inv.readByte_eq {w : World} {live : Finset ℕ} (h : Inv base w live)
    (hp : p ∈ live) (hva : va ≤ userLimit) :
    readByte w.mem p va = (lookup w.mem p va).map fun e => w.mem (addrOf e + va % 4096) := by
  rw [readByte, h.walk_eq hp (pml4Idx_user hva), Option.map_map]
  rfl

end Tori.Vmm
