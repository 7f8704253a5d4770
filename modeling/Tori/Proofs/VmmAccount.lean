import Tori.Proofs.VmmClone

/-! Frame accounting. `weight q t` is the number of references to frame `q` that a tree
stands for: one if `q` is one of its tables, plus one per leaf that maps `q`. `Inv` says that
the page allocator counts exactly the weights of the live address spaces on top of the
pages in use before; each operation of `vmm.cpp` keeps it. -/

namespace Tori.Vmm

open Loop Pmm Radix Function

def weight (q : ℕ) (t : PTree) : ℕ := tally (fun g => if g = q then 1 else 0) (refs q) t

theorem weight_eq (q : ℕ) (t : PTree) : weight q t = own q t + cnt (refs q) t := own_add_cnt q (refs q) t

/-! ### Freeing -/

variable {p q f : ℕ} {m m' : Mem} {w w' : World} {live : Finset ℕ}

theorem pageState_freePage (s : State) (hp : p < maxManagedPages) (q : ℕ) :
    pageState (freePage (p * 4096) s) q =
      releaseState^[if p = q then 1 else 0] (pageState s q) := by
  have h := pageState_freePages s p 1 Nat.one_pos hp q
  rw [show p * pageSize = p * 4096 from rfl] at h
  rw [freePage, h]
  by_cases hq : p = q
  · rw [if_pos (by omega), if_pos hq]; rfl
  · rw [if_neg (by omega), if_neg hq]; rfl

theorem forUp_release {body : ℕ → State → State} {c : Fin 512 → ℕ} {K : ℕ} (hK : K ≤ 512)
    (hbody : ∀ (i : Fin 512) s, i.val < K →
      pageState (body i s) q = releaseState^[c i] (pageState s q)) (s : State) :
    pageState (forUp body K 0 s) q =
      releaseState^[∑ i : Fin 512, if i.val < K then c i else 0] (pageState s q) := by
  have h := forUp_inv (f := body) (P := fun k s' => pageState s' q =
      releaseState^[∑ i : Fin 512, if i.val < k then c i else 0] (pageState s q)) K 0 s ?_ (by simp)
  · rwa [Nat.zero_add] at h
  intro k s' _ hk h
  rw [hbody ⟨k, by omega⟩ s' (by dsimp only; omega), h, sum_lt_succ _ (show k < 512 by omega), Nat.add_comm,
    iterate_add_apply]

/-- Everything the tree refers to is managed. -/
def Managed (t : PTree) : Prop := ∀ q, 0 < weight q t → q < maxManagedPages

theorem weight_kidOf_le {k : ℕ} (rd : ℕ → Fin 512 → Entry) (d f q : ℕ) (i : Fin 512) (hi : i.val < k) :
    weight q (kidOf cls (view cls cap rd d) (rd f i)) ≤ weight q (upTo cls cap k rd d f) := by
  rw [weight, weight, tally_upTo]
  refine le_trans ?_ (Nat.le_add_left _ _)
  have := Finset.single_le_sum
    (f := fun i : Fin 512 => if i.val < k then
      tally (fun g => if g = q then 1 else 0) (refs q) (kidOf cls (view cls cap rd d) (rd f i)) else 0)
    (fun _ _ => Nat.zero_le _) (Finset.mem_univ i)
  simpa only [if_pos hi] using this

/-- One slot of an upper table, as the freeing loops treat it. -/
theorem pageState_freeSlot {d : ℕ} {i : Fin 512}
    (hspec : ∀ g s, Ok okEntry (view cls cap (rd m) d g) → Managed (view cls cap (rd m) d g) →
      pageState (freeTable m d (g * 4096) s) q =
        releaseState^[weight q (view cls cap (rd m) d g)] (pageState s q))
    (hok : Ok okEntry (kidOf cls (view cls cap (rd m) d) (rd m f i)))
    (hm : Managed (kidOf cls (view cls cap (rd m) d) (rd m f i))) (s : State) :
    pageState (if !has (entry m (f * 4096) i) ptePresent then s
      else if !has (entry m (f * 4096) i) pteHuge then freeTable m d (addrOf (entry m (f * 4096) i)) s
      else s) q =
      releaseState^[weight q (kidOf cls (view cls cap (rd m) d) (rd m f i))] (pageState s q) := by
  simp only [← rd.eq_def]
  rcases slot_cases (fun g => view_frame (rd m) d g) hok with hP | ⟨g, hg, he, hsub⟩
  · rw [kidOf_absent hP, hP]; rfl
  · obtain ⟨hP, hH, -, -, hA⟩ := tableEntry_bits hg
    rw [he] at hm ⊢
    rw [kidOf_table hg] at hm ⊢
    simp only [hP, hH, hA, Bool.not_true, Bool.false_eq_true, if_false, Bool.not_false, if_true]
    exact hspec g s hsub hm

theorem pageState_freeTable (m : Mem) (q d : ℕ) (hd : d ≤ 2) (f : ℕ) (s : State)
    (hok : Ok okEntry (view cls cap (rd m) d f)) (hm : Managed (view cls cap (rd m) d f)) :
    pageState (freeTable m d (f * 4096) s) q =
      releaseState^[weight q (view cls cap (rd m) d f)] (pageState s q) := by
  induction d generalizing f s with
  | zero =>
    have hf : f < maxManagedPages := hm f (by rw [weight_eq]; simp [view, own_leaf])
    rw [freeTable, pageState_freePage _ hf, forUp_release (c := fun i => refs q (rd m f i)) le_rfl ?_ s,
      ← iterate_add_apply, weight, view, tally]
    · simp only [Fin.is_lt, if_true]
    intro i s _
    simp only [← rd.eq_def]
    cases hP : has (rd m f i) ptePresent with
    | false => rw [refs_absent hP]; rfl
    | true =>
      have hpos : 0 < weight (addrOf (rd m f i) / 4096) (view cls cap (rd m) 0 f) := by
        rw [weight_eq, view, cnt_leaf]
        have h1 := Finset.single_le_sum (f := fun j => refs (addrOf (rd m f i) / 4096) (rd m f j))
          (fun _ _ => Nat.zero_le _) (Finset.mem_univ i)
        simp only [refs_present hP, if_true] at h1
        omega
      have := pageState_freePage s (hm _ hpos) q
      rw [addrOf_div_mul] at this
      simp only [Bool.not_true, Bool.false_eq_true, if_false, this, refs_present hP]
  | succ d ih =>
    have hcap : cap (d + 1) = 512 := by unfold cap; rw [if_neg (by omega)]
    rw [view_succ, hcap] at hok hm ⊢
    have hf : f < maxManagedPages := hm f (by
      rw [weight_eq]; exact Nat.lt_of_lt_of_le (own_upTo_self _ _ _ _) (Nat.le_add_right _ _))
    rw [freeTable, pageState_freePage _ hf, forUp_release
      (c := fun i => weight q (kidOf cls (view cls cap (rd m) d) (rd m f i))) le_rfl ?_ s,
      ← iterate_add_apply, weight, tally_upTo]
    · rfl
    intro i s hi
    refine pageState_freeSlot (fun g s => ih (by omega) g s) ?_ ?_ s
    · have := hok i
      simpa only [if_pos hi] using this
    · exact fun q' hq' => hm q' (lt_of_lt_of_le hq' (weight_kidOf_le _ _ _ _ i hi))

theorem freeAddressSpace_spec (h0 : f ≠ 0) (hok : Ok okEntry (tree w.mem (f * 4096)))
    (hm : Managed (tree w.mem (f * 4096))) :
    (freeAddressSpace (f * 4096) w).mem = w.mem ∧
      ∀ q, pageState (freeAddressSpace (f * 4096) w).pmm q =
        releaseState^[weight q (tree w.mem (f * 4096))] (pageState w.pmm q) := by
  have htree : tree w.mem (f * 4096) = upTo cls cap 256 (rd w.mem) 2 f := by
    rw [tree, Nat.mul_div_cancel _ (by decide)]; rfl
  rw [htree] at hok hm
  unfold freeAddressSpace
  rw [if_neg (by omega)]
  refine ⟨rfl, fun q => ?_⟩
  have hf : f < maxManagedPages := hm f (by
    rw [weight_eq]; exact Nat.lt_of_lt_of_le (own_upTo_self _ _ _ _) (Nat.le_add_right _ _))
  dsimp only
  rw [pageState_freePage _ hf, forUp_release
    (c := fun i => weight q (kidOf cls (view cls cap (rd w.mem) 2) (rd w.mem f i))) (by decide) ?_ w.pmm,
    ← iterate_add_apply, htree, weight, tally_upTo]
  · rfl
  intro i s hi
  refine pageState_freeSlot (fun g s => pageState_freeTable w.mem q 2 le_rfl g s) ?_ ?_ s
  · have := hok i
    simpa only [if_pos hi] using this
  · exact fun q' hq' => hm q' (lt_of_lt_of_le hq' (weight_kidOf_le _ _ _ _ i hi))

/-! ### The invariant -/

/-- The pages before any address space exists: a free page has no reference and is managed,
and page 0 is reserved. -/
structure IsBase (base : ℕ → Bool × ℕ) : Prop where
  free : ∀ q, (base q).1 = false → base q = (false, 0) ∧ q < maxManagedPages
  zero : (base 0).1 = true

structure Inv (base : ℕ → Bool × ℕ) (w : World) (live : Finset ℕ) : Prop where
  root : ∀ p ∈ live, p % 4096 = 0
  ok : ∀ p ∈ live, Ok okEntry (tree w.mem p)
  single : ∀ q, tables w.mem live q ≤ 1
  apart : ∀ q, 0 < tables w.mem live q → leaves w.mem live q = 0
  taken : ∀ q, 0 < tables w.mem live q + leaves w.mem live q → (base q).1 = false
  pages : ∀ q, pageState w.pmm q =
    if 0 < tables w.mem live q + leaves w.mem live q then
      (true, tables w.mem live q + leaves w.mem live q) else base q

/-- `Inv` at one page: its state, its state in `base`, and how often it is a table and a leaf. -/
structure PageOk (st b : Bool × ℕ) (t l : ℕ) : Prop where
  single : t ≤ 1
  apart : 0 < t → l = 0
  taken : 0 < t + l → b.1 = false
  state : st = if 0 < t + l then (true, t + l) else b

theorem PageOk.one {b : Bool × ℕ} {t l : ℕ} (hb : b.1 = false) (h : t + l = 1) : PageOk (true, 1) b t l :=
  ⟨by omega, by omega, fun _ => hb, by rw [if_pos (by omega), h]⟩

theorem inv_iff_pages {base : ℕ → Bool × ℕ} {w : World} {live : Finset ℕ} :
    Inv base w live ↔ (∀ p ∈ live, p % 4096 = 0) ∧ (∀ p ∈ live, Ok okEntry (tree w.mem p)) ∧
      ∀ q, PageOk (pageState w.pmm q) (base q) (tables w.mem live q) (leaves w.mem live q) := by
  refine ⟨fun h => ⟨h.root, h.ok, fun q => ⟨h.single q, h.apart q, h.taken q, h.pages q⟩⟩, ?_⟩
  rintro ⟨hroot, hok, h⟩
  exact ⟨hroot, hok, fun q => (h q).single, fun q => (h q).apart, fun q => (h q).taken, fun q => (h q).state⟩

section Sums

variable {m : Mem} {live : Finset ℕ} {p q : ℕ}

theorem own_le_tables (hp : p ∈ live) : own q (tree m p) ≤ tables m live q :=
  Finset.single_le_sum (f := fun p => own q (tree m p)) (fun _ _ => Nat.zero_le _) hp

theorem cnt_le_leaves (hp : p ∈ live) : cnt (refs q) (tree m p) ≤ leaves m live q :=
  Finset.single_le_sum (f := fun p => cnt (refs q) (tree m p)) (fun _ _ => Nat.zero_le _) hp

theorem own_pair_le_tables {p' : ℕ} (hp : p ∈ live) (hp' : p' ∈ live) (hne : p ≠ p') :
    own q (tree m p) + own q (tree m p') ≤ tables m live q := by
  rw [← Finset.sum_pair hne (f := fun p => own q (tree m p))]
  refine Finset.sum_le_sum_of_subset fun x hx => ?_
  rcases Finset.mem_insert.1 hx with rfl | hx
  · exact hp
  · rw [Finset.mem_singleton.1 hx]; exact hp'

theorem own_root_pos : 0 < own (p / 4096) (tree m p) := own_view_self _ _ _

end Sums

namespace Inv

variable {base : ℕ → Bool × ℕ} {w w' : World} {live : Finset ℕ} {p : ℕ}

theorem page (h : Inv base w live) (q : ℕ) :
    PageOk (pageState w.pmm q) (base q) (tables w.mem live q) (leaves w.mem live q) :=
  (inv_iff_pages.1 h).2.2 q

theorem frame (h : Inv base w live) (hp : p ∈ live) : p / 4096 * 4096 = p := by
  have := h.root p hp
  omega

theorem used_iff (h : Inv base w live) (q : ℕ) :
    isPageUsed w.pmm q = true ↔
      0 < tables w.mem live q + leaves w.mem live q ∨ (base q).1 = true := by
  have hst := congrArg Prod.fst (h.pages q)
  change isPageUsed w.pmm q = _ at hst
  rw [hst]
  split_ifs with h0
  · simp [h0]
  · simp [h0]

variable {q : ℕ}

section

variable (h : Inv base w live)
include h

theorem free_of_unused (hq : isPageUsed w.pmm q = false) :
    tables w.mem live q = 0 ∧ leaves w.mem live q = 0 ∧ (base q).1 = false := by
  have hnot : ¬ (0 < tables w.mem live q + leaves w.mem live q ∨ (base q).1 = true) := by
    rw [← h.used_iff q, hq]
    exact Bool.false_ne_true
  rw [not_or] at hnot
  refine ⟨by omega, by omega, ?_⟩
  cases hb : (base q).1 with
  | false => rfl
  | true => exact absurd hb hnot.2

theorem managed (hb : IsBase base) (hq : 0 < tables w.mem live q + leaves w.mem live q) : q < maxManagedPages :=
  (hb.free q (h.taken q hq)).2

theorem root_ne_zero (hb : IsBase base) (hp : p ∈ live) : p / 4096 ≠ 0 := by
  intro h0
  have h1 := h.taken (p / 4096)
    (Nat.lt_of_lt_of_le own_root_pos (le_trans (own_le_tables hp) (Nat.le_add_right _ _)))
  rw [h0, hb.zero] at h1
  exact Bool.noConfusion h1

theorem inUse (hb : IsBase base) (hp : p ∈ live) : InUse w.pmm (tree w.mem p) := by
  intro q hq
  have h1 : own q (tree w.mem p) ≤ tables w.mem live q := own_le_tables hp
  have h2 : cnt (refs q) (tree w.mem p) ≤ leaves w.mem live q := cnt_le_leaves hp
  exact ⟨h.managed hb (by omega), (h.used_iff q).2 (.inl (by omega))⟩

theorem own_le_one (hp : p ∈ live) (q : ℕ) : own q (tree w.mem p) ≤ 1 :=
  (own_le_tables hp).trans (h.single q)

end

end Inv

/-- The tables of live address spaces are untouched, so their trees are. -/
theorem tree_same (hp : p ∈ live)
    (h : ∀ g, 0 < tables m live g → rd m' g = rd m g) : tree m' p = tree m p :=
  view_congr _ _ fun g hg => h g (lt_of_lt_of_le hg (own_le_tables hp))

theorem counts_same (h : ∀ g, 0 < tables m live g → rd m' g = rd m g) (q : ℕ) :
    tables m' live q = tables m live q ∧ leaves m' live q = leaves m live q :=
  ⟨Finset.sum_congr rfl fun p hp => by rw [tree_same hp h],
    Finset.sum_congr rfl fun p hp => by rw [tree_same hp h]⟩

/-- Where no table is touched, the invariant is one of the pages. -/
theorem Inv.congr {base' : ℕ → Bool × ℕ} {w' : World} (h : Inv base w live)
    (hsame : ∀ g, 0 < tables w.mem live g → rd w'.mem g = rd w.mem g)
    (htaken : ∀ q, 0 < tables w.mem live q + leaves w.mem live q → (base' q).1 = false)
    (hpages : ∀ q, pageState w'.pmm q = if 0 < tables w.mem live q + leaves w.mem live q then
      (true, tables w.mem live q + leaves w.mem live q) else base' q) :
    Inv base' w' live ∧ ∀ p ∈ live, tree w'.mem p = tree w.mem p := by
  have htree : ∀ p ∈ live, tree w'.mem p = tree w.mem p := fun p hp => tree_same hp hsame
  have hc := counts_same hsame
  refine ⟨inv_iff_pages.2 ⟨h.root, fun p hp => by rw [htree p hp]; exact h.ok p hp, fun q => ?_⟩, htree⟩
  rw [(hc q).1, (hc q).2]
  exact ⟨h.single q, h.apart q, htaken q, hpages q⟩

/-! ### A new, empty address space -/

theorem empty_table (d : ℕ) (h : ∀ i : Fin 512, i.val < cap d → rd m f i = 0) :
    (∀ q, own q (view cls cap (rd m) d f) = if f = q then 1 else 0) ∧
      (∀ q, cnt (refs q) (view cls cap (rd m) d f) = 0) ∧ Ok okEntry (view cls cap (rd m) d f) ∧
      ∀ ix, (leafAt ix d (view cls cap (rd m) d f)).filter (fun e => has e ptePresent) = none := by
  cases d with
  | zero =>
    have hz : ∀ i, rd m f i = 0 := fun i => h i i.isLt
    refine ⟨fun q => own_leaf _ _ _, fun q => ?_, trivial, fun ix => ?_⟩
    · rw [view, cnt_leaf]
      exact Finset.sum_eq_zero fun i _ => by rw [hz i, refs_absent absent_zero]
    · simp only [view, leafAt, hz, Option.filter, absent_zero]
      rfl
  | succ d =>
    have hv : view cls cap (rd m) (d + 1) f = .node f fun _ => .nil := by
      rw [view]
      congr 1
      funext i
      split_ifs with hi
      · rw [h i hi, kidOf_absent absent_zero]
      · rfl
    rw [hv]
    exact ⟨fun q => by simp [own_node], fun q => by simp [cnt_node], fun _ => trivial, fun ix => rfl⟩

/-- A new PML4 is an empty user half and the kernel's upper half. -/
theorem createUserPml4_cases (hcall : createUserPml4 w = (p, w')) :
    p = 0 ∧ w' = w ∨ ∃ f', p = f' * 4096 ∧ Allocated w w' f' ∧ (∀ i : Fin 512, i.val < 256 → rd w'.mem f' i = 0) ∧
      ∀ g, w.kernelPml4Phys = g * 4096 → g ≠ f' → ∀ i : Fin 512, 256 ≤ i.val →
        rd w'.mem f' i = rd w.mem g i := by
  unfold createUserPml4 at hcall
  split_ifs at hcall
  · exact .inl ⟨(Prod.mk.inj hcall).1.symm, (Prod.mk.inj hcall).2.symm⟩
  cases ha : allocPage w.pmm with
  | mk a s =>
    simp only [ha] at hcall
    split_ifs at hcall with hinv
    · obtain rfl : s = w.pmm := allocPages_fail (by rw [hinv] at ha; exact ha)
      exact .inl ⟨(Prod.mk.inj hcall).1.symm, (Prod.mk.inj hcall).2.symm⟩
    cases hcall
    obtain ⟨f', rfl, halloc⟩ := allocated ha hinv
    obtain ⟨hz1, hz2⟩ := zeroTable_spec f' w.mem
    obtain ⟨hc1, hc2⟩ := forUp_setEntry (fun i m => entry m w.kernelPml4Phys i) 256 256
      (zeroTable (f' * 4096) w.mem) le_rfl
    have hc3 : ∀ g, w.kernelPml4Phys = g * 4096 → g ≠ f' → ∀ i : Fin 512, 256 ≤ i.val →
        rd (forUp (fun i m => setEntry m (f' * 4096) i (entry m w.kernelPml4Phys i)) 256 256
          (zeroTable (f' * 4096) w.mem)) f' i = rd w.mem g i := by
      intro g hg hne i hi
      rw [hg, forUp_copyEntry hne 256 256 _ le_rfl i hi i.isLt, rd_congr fun x hx => hz1 x (by omega)]
    generalize forUp (fun i m => setEntry m (f' * 4096) i (entry m w.kernelPml4Phys i)) 256 256
      (zeroTable (f' * 4096) w.mem) = m at hc1 hc2 hc3 ⊢
    exact .inr ⟨f', rfl, ⟨halloc.lt, halloc.free, halloc.pmm, fun x hx => (hc1 x hx).trans (hz1 x hx), rfl⟩,
      fun i hi => (hc2 i (.inl hi)).trans (hz2 i), hc3⟩

theorem createUserPml4_spec (hcall : createUserPml4 w = (p, w')) (h0 : p ≠ 0) :
    ∃ f', p = f' * 4096 ∧ Allocated w w' f' ∧ (∀ i : Fin 512, i.val < 256 → rd w'.mem f' i = 0) ∧
      ∀ g, w.kernelPml4Phys = g * 4096 → g ≠ f' → ∀ i : Fin 512, 256 ≤ i.val →
        rd w'.mem f' i = rd w.mem g i :=
  (createUserPml4_cases hcall).resolve_left fun h => h0 h.1

/-- The loop of `clone_address_space` over a table without present entries. -/
theorem forUpE_empty {f' : ℕ} (hne : f ≠ f') (n i : ℕ) (hn : i + n ≤ 256) (w : World)
    (hempty : ∀ j : Fin 512, j.val < 256 → rd w.mem f j = 0) :
    forUpE (cloneNode (cloneTable 2) (f * 4096) (f' * 4096)) n i w =
      .ok { w with mem := forUp (fun i m => setEntry m (f' * 4096) i 0) n i w.mem } := by
  induction n generalizing i w with
  | zero => rfl
  | succ n ih =>
    have hi : i < 512 := by omega
    have hentry : entry w.mem (f * 4096) i = 0 := hempty ⟨i, hi⟩ (by dsimp only; omega)
    have hnode : cloneNode (cloneTable 2) (f * 4096) (f' * 4096) i w =
        .ok { w with mem := setEntry w.mem (f' * 4096) i 0 } := by
      simp only [cloneNode, hentry, absent_zero, Bool.not_false, if_true]
    rw [forUpE, hnode]
    refine ih (i + 1) (by omega) { w with mem := setEntry w.mem (f' * 4096) i 0 } fun j hj => ?_
    rw [rd_set_ne (i := ⟨i, hi⟩) hne]
    exact hempty j hj

/-- A clone of an empty address space is a copy of the upper half. -/
theorem cloneAddressSpace_cases (hused : isPageUsed w.pmm f = true)
    (hempty : ∀ j : Fin 512, j.val < 256 → rd w.mem f j = 0) (hcall : cloneAddressSpace (f * 4096) w = (p, w')) :
    p = 0 ∧ w' = w ∨ ∃ f', p = f' * 4096 ∧ Allocated w w' f' ∧ (∀ i : Fin 512, i.val < 256 → rd w'.mem f' i = 0) ∧
      ∀ i : Fin 512, 256 ≤ i.val → rd w'.mem f' i = rd w.mem f i := by
  have hloop : ∀ {f' w₁}, Allocated w w₁ f' → _ := fun {f' w₁} ha =>
    forUpE_empty (ha.ne_of_used hused) 256 0 le_rfl w₁ fun j hj => by
      rw [rd_congr fun x hx => ha.mem x (hx ▸ ha.ne_of_used hused)]
      exact hempty j hj
  cases cloneRun hcall with
  | none _ => exact .inl ⟨rfl, rfl⟩
  | stopped _ ha hrun =>
    rw [forUpE_mapError.mpr (hloop ha)] at hrun
    cases hrun
  | @done f' w₁ _ ha htop hrun =>
    rw [hloop ha] at hrun
    obtain ⟨hout, hrest⟩ := forUp_setEntry (fun _ _ => 0) 256 0 w₁.mem (by decide)
    have hzero := forUp_fill (f := f') (e := fun _ => 0) 256 0 w₁.mem (by decide) fun _ _ _ _ => rfl
    generalize forUp (fun i m => setEntry m (f' * 4096) i 0) 256 0 w₁.mem = m at hrun hout hrest hzero
    cases hrun
    exact .inr ⟨f', rfl, ⟨ha.lt, ha.free, ha.pmm, fun x hx => (hout x hx).trans (ha.mem x hx), ha.kernel⟩,
      fun i hi => hzero i (Nat.zero_le _) (by omega),
      fun i hi => (hrest i (.inr (by omega))).trans (htop (ha.ne_of_used hused) i hi)⟩

/-- What cloning a live address space does to the trees. -/
structure CloneEffect (w w' : World) (live : Finset ℕ) (src dst : ℕ) : Prop where
  new : dst ∉ live
  cloned : Cloned w w' (tree w.mem src) (tree w'.mem dst)
  source : tree w'.mem src = mapLeaf markLeaf (tree w.mem src)
  others : ∀ p ∈ live, p ≠ src → tree w'.mem p = tree w.mem p

namespace Inv

variable {base : ℕ → Bool × ℕ} {w w' : World} {live : Finset ℕ} {p : ℕ}

variable {f' src dst : ℕ}

theorem rd_allocated (h : Inv base w live) (ha : Allocated w w' f') {g : ℕ}
    (hg : 0 < tables w.mem live g) : rd w'.mem g = rd w.mem g := by
  refine rd_congr fun x hx => ha.mem x fun hxf => ?_
  have := (h.free_of_unused ha.free).1
  rw [← hxf, hx] at this
  omega

theorem add_empty (h : Inv base w live) (ha : Allocated w w' f')
    (hz : ∀ i : Fin 512, i.val < 256 → rd w'.mem f' i = 0) :
    Inv base w' (insert (f' * 4096) live) ∧ f' * 4096 ∉ live ∧
      ∀ q, leaves w'.mem (insert (f' * 4096) live) q = leaves w.mem live q := by
  obtain ⟨ht, hl, hbase⟩ := h.free_of_unused ha.free
  have hdiv : f' * 4096 / 4096 = f' := Nat.mul_div_cancel _ (by decide)
  have hnew : f' * 4096 ∉ live := by
    intro hmem
    have h1 := own_root_pos (m := w.mem) (p := f' * 4096)
    have h2 := own_le_tables (m := w.mem) (q := f' * 4096 / 4096) hmem
    rw [hdiv] at h1 h2
    omega
  obtain ⟨hown, hcnt, hok, -⟩ := empty_table 3 (fun i hi => hz i hi)
  have htree : tree w'.mem (f' * 4096) = view cls cap (rd w'.mem) 3 f' := by rw [tree, hdiv]
  have hsame := fun g (hg : 0 < tables w.mem live g) => h.rd_allocated ha hg
  have htables : ∀ q, tables w'.mem (insert (f' * 4096) live) q =
      (if f' = q then 1 else 0) + tables w.mem live q := fun q => by
    rw [tables, Finset.sum_insert hnew, htree, hown, ← (counts_same hsame q).1]; rfl
  have hleaves : ∀ q, leaves w'.mem (insert (f' * 4096) live) q = leaves w.mem live q := fun q => by
    rw [leaves, Finset.sum_insert hnew, htree, hcnt, Nat.zero_add, ← (counts_same hsame q).2]; rfl
  refine ⟨inv_iff_pages.2 ⟨fun p hp => ?_, fun p hp => ?_, fun q => ?_⟩, hnew, hleaves⟩
  · rcases Finset.mem_insert.1 hp with rfl | hp
    · omega
    · exact h.root p hp
  · rcases Finset.mem_insert.1 hp with rfl | hp
    · rw [htree]; exact hok
    · rw [tree_same hp hsame]; exact h.ok p hp
  · rw [htables, hleaves, ha.pmm q]
    by_cases hq : q = f'
    · subst hq
      rw [if_pos rfl, if_pos rfl, ht, hl]
      exact .one hbase rfl
    · rw [if_neg hq, if_neg (Ne.symm hq), Nat.zero_add]
      exact h.page q

theorem create (h : Inv base w live) (hcall : createUserPml4 w = (p, w')) (h0 : p ≠ 0) :
    ∃ f', Allocated w w' f' ∧ Inv base w' (insert p live) ∧ p ∉ live ∧
      (∀ q, leaves w'.mem (insert p live) q = leaves w.mem live q) ∧
      ∀ va, lookup w'.mem p va = none := by
  obtain ⟨f', rfl, halloc, hzero, -⟩ := createUserPml4_spec hcall h0
  obtain ⟨hinv', hnew, hleaves⟩ := h.add_empty halloc hzero
  refine ⟨f', halloc, hinv', hnew, hleaves, fun va => ?_⟩
  rw [lookup, tree, Nat.mul_div_cancel _ (by decide)]
  exact (empty_table 3 (fun i hi => hzero i hi)).2.2.2 (ix va)

theorem cloneEffect (h : Inv base w live) (hb : IsBase base) (hsrc : src ∈ live)
    (hcall : cloneAddressSpace src w = (dst, w')) (h0 : dst ≠ 0) :
    dst % 4096 = 0 ∧ CloneEffect w w' live src dst := by
  have hf := h.frame hsrc
  rw [← hf] at hcall
  obtain ⟨f', rfl, hcl, hmark⟩ := cloneAddressSpace_spec
    (by rw [hf]; exact ⟨h.ok src hsrc, h.own_le_one hsrc, h.inUse hb hsrc⟩) hcall h0
  rw [hf] at hcl hmark
  refine ⟨by omega, fun hmem => ?_, hcl, hmark, fun p hp hne => ?_⟩
  · have h1 := (hcl.fresh _ own_root_pos).2
    have h2 := (h.inUse hb hmem _ (Nat.lt_of_lt_of_le own_root_pos (Nat.le_add_right _ _))).2
    rw [h1] at h2
    exact Bool.noConfusion h2
  · refine view_congr _ _ fun g hg => hcl.rd_same (h.inUse hb hp g (by unfold tree; omega)).2 ?_
    have h1 := own_pair_le_tables (m := w.mem) (q := g) hsrc hp (Ne.symm hne)
    have h2 := h.single g
    change 0 < own g (tree w.mem p) at hg
    omega

theorem clone_counts (he : CloneEffect w w' live src dst) (q : ℕ) :
    tables w'.mem (insert dst live) q = own q (tree w'.mem dst) + tables w.mem live q ∧
      leaves w'.mem (insert dst live) q = cnt (refs q) (tree w.mem src) + leaves w.mem live q := by
  have hrefs : ∀ e : Entry, refs q (markLeaf e) = refs q e := refs_markLeaf q
  have hcopy : ∀ e : Entry, refs q (copyLeaf e) = refs q e := refs_copyLeaf q
  have hown : ∀ p ∈ live, own q (tree w'.mem p) = own q (tree w.mem p) := by
    intro p hp
    by_cases hps : p = src
    · rw [hps, he.source, own_mapLeaf]
    · rw [he.others p hp hps]
  have hcnt : ∀ p ∈ live, cnt (refs q) (tree w'.mem p) = cnt (refs q) (tree w.mem p) := by
    intro p hp
    by_cases hps : p = src
    · rw [hps, he.source, cnt_mapLeaf]
      simp only [hrefs]
    · rw [he.others p hp hps]
  rw [tables, Finset.sum_insert he.new, leaves, Finset.sum_insert he.new, Finset.sum_congr rfl hown,
    Finset.sum_congr rfl hcnt, he.cloned.copy.cnt]
  simp only [hcopy]
  exact ⟨rfl, rfl⟩

theorem clone (h : Inv base w live) (hsrc : src ∈ live) (hroot : dst % 4096 = 0)
    (he : CloneEffect w w' live src dst)
    (hbound : ∀ q, leaves w'.mem (insert dst live) q ≤ uint16Max) : Inv base w' (insert dst live) := by
  have hcounts := clone_counts he
  -- a fresh table was referred to by nobody
  have hfresh : ∀ q, 0 < own q (tree w'.mem dst) →
      tables w.mem live q = 0 ∧ leaves w.mem live q = 0 ∧ cnt (refs q) (tree w.mem src) = 0 ∧
        (base q).1 = false := by
    intro q hq
    have hfree := (he.cloned.fresh q hq).2
    obtain ⟨h1, h2, h3⟩ := h.free_of_unused hfree
    exact ⟨h1, h2, Nat.le_zero.1 (h2 ▸ cnt_le_leaves hsrc), h3⟩
  refine inv_iff_pages.2 ⟨fun p hp => ?_, fun p hp => ?_, fun q => ?_⟩
  · rcases Finset.mem_insert.1 hp with rfl | hp
    · exact hroot
    · exact h.root p hp
  · rcases Finset.mem_insert.1 hp with rfl | hp
    · exact he.cloned.ok
    · by_cases hps : p = src
      · rw [hps, he.source]; exact (h.ok src hsrc).mapLeaf _
      · rw [he.others p hp hps]; exact h.ok p hp
  · have hq := hbound q
    rw [(hcounts q).2] at hq
    rw [(hcounts q).1, (hcounts q).2, he.cloned.pmm q]
    rcases Nat.eq_zero_or_pos (own q (tree w'.mem dst)) with h0 | hpos
    · have hle : cnt (refs q) (tree w.mem src) ≤ leaves w.mem live q := cnt_le_leaves hsrc
      have h1 := h.single q
      have h2 := h.apart q
      rw [if_neg (by omega), h.pages q, h0, Nat.zero_add]
      refine ⟨h1, by omega, fun _ => h.taken q (by omega), ?_⟩
      by_cases htot : 0 < tables w.mem live q + leaves w.mem live q
      · have h3 : 1 ≤ uint16Max := by decide
        rw [if_pos htot, if_pos (by omega), retain_iter_true (by omega)]
        exact congrArg (Prod.mk true) (by omega)
      · rw [if_neg htot, if_neg (by omega), show cnt (refs q) (tree w.mem src) = 0 by omega]
        rfl
    · obtain ⟨h1, h2, h3, hbase⟩ := hfresh q hpos
      have h4 := he.cloned.uniq q
      rw [if_pos hpos, h1, h2, h3]
      exact .one hbase (by omega)

theorem free (h : Inv base w live) (hb : IsBase base) (hp : p ∈ live) :
    (freeAddressSpace p w).mem = w.mem ∧ Inv base (freeAddressSpace p w) (live.erase p) := by
  have hf := h.frame hp
  have hm : Managed (tree w.mem p) := fun q hq => (h.inUse hb hp q (by rwa [weight_eq] at hq)).1
  obtain ⟨hmem, hpmm⟩ := freeAddressSpace_spec (h.root_ne_zero hb hp)
    (by rw [hf]; exact h.ok p hp) (by rw [hf]; exact hm)
  rw [hf] at hmem hpmm
  refine ⟨hmem, ?_⟩
  have ht : ∀ q, tables w.mem (live.erase p) q + own q (tree w.mem p) = tables w.mem live q :=
    fun q => Finset.sum_erase_add live _ hp
  have hl : ∀ q, leaves w.mem (live.erase p) q + cnt (refs q) (tree w.mem p) = leaves w.mem live q :=
    fun q => Finset.sum_erase_add live _ hp
  refine inv_iff_pages.2 ⟨fun p' hp' => h.root p' (Finset.mem_of_mem_erase hp'), fun p' hp' => ?_, fun q => ?_⟩
  · rw [hmem]; exact h.ok p' (Finset.mem_of_mem_erase hp')
  · have h1 := ht q
    have h2 := hl q
    have h3 := h.single q
    have h4 := h.apart q
    rw [hmem, hpmm q, h.pages q, weight_eq]
    refine ⟨by omega, by omega, fun _ => h.taken q (by omega), ?_⟩
    by_cases htot : 0 < tables w.mem live q + leaves w.mem live q
    · rw [if_pos htot, release_iter_true htot]
      by_cases hrest : 0 < tables w.mem (live.erase p) q + leaves w.mem (live.erase p) q
      · rw [if_pos (by omega), if_pos hrest]
        exact congrArg (Prod.mk true) (by omega)
      · rw [if_neg (by omega), if_neg hrest, (hb.free q (h.taken q htot)).1]
    · rw [if_neg htot, if_neg (by omega), show own q (tree w.mem p) + cnt (refs q) (tree w.mem p) = 0 by omega]
      rfl

end Inv

end Tori.Vmm
