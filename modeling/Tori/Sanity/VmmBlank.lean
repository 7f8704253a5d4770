import Tori.Sanity.Vmm

/-! The page-table operations on memory that is all zero: clearing a fresh table changes nothing, so the result is a few
stores. -/

namespace Tori.Vmm

open Loop Pmm

variable {w : World} {m : Mem}

variable {f F K F₁ F₂ F₃ va p : ℕ} {i : Fin 512} {st : State}

theorem setEntry_blank {i : ℕ} (hi : i < 512) (h : ∀ x, x / 4096 = f → m x = 0) : setEntry m (f * 4096) i 0 = m := by
  funext x
  unfold setEntry Mem.store64
  split_ifs with hx
  · rw [h x (by omega)]
    simp
  · rfl

theorem zeroTable_blank (h : ∀ x, x / 4096 = f → m x = 0) : zeroTable (f * 4096) m = m := by
  refine forUp_inv (P := fun _ m' => m' = m) 512 0 m (fun i m' _ hi hm => ?_) rfl
  rw [hm]
  exact setEntry_blank (by omega) h

theorem ensureTable_blank (habs : has (rd w.mem f i) ptePresent = false)
    (halloc : allocPage w.pmm = (F * 4096, st)) (hF : F < maxManagedPages) (h : ∀ x, x / 4096 = F → w.mem x = 0) :
    ensureTable (f * 4096) i w =
      some (F * 4096, { w with pmm := st, mem := setEntry w.mem (f * 4096) i (tableEntry (F * 4096)) }) := by
  have hok : F * 4096 ≠ invalidPhysicalAddress := by
    have : maxManagedPages * 4096 < invalidPhysicalAddress := by decide
    omega
  have hself := congrFun (rd_setEntry_self w.mem f i (tableEntry (F * 4096))) i
  rw [Function.update_self] at hself
  unfold ensureTable
  rw [show entry w.mem (f * 4096) i = rd w.mem f i from rfl, habs, halloc]
  dsimp only
  rw [Bool.not_false, if_pos rfl, if_neg hok, zeroTable_blank h, show entry (setEntry w.mem (f * 4096) i _) (f * 4096) i = _ from hself,
    (tableEntry_bits hF).2.2.2.2]

/-- The kernel's PML4 with one page mapped. -/
def onePage (K F₁ F₂ F₃ va : ℕ) (e : Entry) : Mem :=
  setEntry (setEntry (setEntry (setEntry (fun _ => 0) (K * 4096) (ix va 3) (tableEntry (F₁ * 4096))) (F₁ * 4096) (ix va 2)
    (tableEntry (F₂ * 4096))) (F₂ * 4096) (ix va 1) (tableEntry (F₃ * 4096))) (F₃ * 4096) (ix va 0) e

theorem splitIfHuge_absent {level : ℕ} (habs : has (rd w.mem f i) ptePresent = false) :
    splitIfHuge (f * 4096) i level w = some w := by
  unfold splitIfHuge
  dsimp only
  rw [show entry w.mem (f * 4096) i = rd w.mem f i from rfl, habs]
  rfl

theorem mapPage_blank {a k : ℕ} {flags : Flags} {st₀ st₁ st₂ st₃ : State}
    (hroot : resolvePml4 ⟨st₀, fun _ => 0, k⟩ p = K * 4096) (hK : K ≠ 0)
    (hnodup : [K, F₁, F₂, F₃].Nodup) (hlt : ∀ F ∈ [F₁, F₂, F₃], F < maxManagedPages)
    (h₁ : allocPage st₀ = (F₁ * 4096, st₁)) (h₂ : allocPage st₁ = (F₂ * 4096, st₂))
    (h₃ : allocPage st₂ = (F₃ * 4096, st₃)) :
    mapPage va a flags p ⟨st₀, fun _ => 0, k⟩ =
      some ⟨st₃, onePage K F₁ F₂ F₃ va ((BitVec.ofNat 64 a &&& pteAddrMask) ||| flags.toEntry), k⟩ := by
  simp only [List.nodup_cons, List.mem_cons, List.not_mem_nil, or_false, not_or] at hnodup
  obtain ⟨⟨hK1, hK2, hK3⟩, ⟨h12, h13⟩, h23, -⟩ := hnodup
  have hzero : ∀ f i, rd (fun _ => 0) f i = 0 := fun f i => rfl
  have hother : ∀ {m : Mem} {f : ℕ} (i : Fin 512) (e : Entry) {F : ℕ}, F ≠ f → (∀ x, x / 4096 = F → m x = 0) →
      ∀ x, x / 4096 = F → setEntry m (f * 4096) i e x = 0 := fun i e F hF hm x hx =>
    (setEntry_other _ e i.isLt (by omega)).trans (hm x hx)
  have hrow : ∀ {m : Mem} {F : ℕ} (i : Fin 512), (∀ x, x / 4096 = F → m x = 0) → has (rd m F i) ptePresent = false := by
    intro m F i hm
    rw [show rd m F = rd (fun _ => 0) F from rd_congr fun x hx => hm x hx, hzero, absent_zero]
  have hb : ∀ F x, x / 4096 = F → (fun _ => 0 : Mem) x = 0 := fun _ _ _ => rfl
  unfold mapPage
  simp only [hroot, if_neg (show ¬ K * 4096 = 0 by omega), pml4Idx_eq, pdptIdx_eq, pdIdx_eq, ptIdx_eq,
    Option.bind_eq_bind]
  have hc₁ := hother (ix va 3) (tableEntry (F₁ * 4096)) (Ne.symm hK1) (hb F₁)
  have hc₂ := hother (ix va 3) (tableEntry (F₁ * 4096)) (Ne.symm hK2) (hb F₂)
  have hc₃ := hother (ix va 3) (tableEntry (F₁ * 4096)) (Ne.symm hK3) (hb F₃)
  have hd₂ := hother (ix va 2) (tableEntry (F₂ * 4096)) (Ne.symm h12) hc₂
  have hd₃ := hother (ix va 2) (tableEntry (F₂ * 4096)) (Ne.symm h13) hc₃
  refine Option.bind_eq_some_iff.2 ⟨_, ensureTable_blank (hrow _ (hb K)) h₁ (hlt _ (by simp)) (hb F₁), ?_⟩
  refine Option.bind_eq_some_iff.2 ⟨_, splitIfHuge_absent (hrow _ hc₁), ?_⟩
  refine Option.bind_eq_some_iff.2 ⟨_, ensureTable_blank (hrow _ hc₁) h₂ (hlt _ (by simp)) hc₂, ?_⟩
  refine Option.bind_eq_some_iff.2 ⟨_, splitIfHuge_absent (hrow _ hd₂), ?_⟩
  exact Option.bind_eq_some_iff.2 ⟨_, ensureTable_blank (hrow _ hd₂) h₃ (hlt _ (by simp)) hd₃, rfl⟩

theorem mapPage_present (a : ℕ) (flags : Flags) (hK : K ≠ 0) (hroot : resolvePml4 w p = K * 4096)
    (hlt : ∀ F ∈ [F₁, F₂, F₃], F < maxManagedPages) (h₁ : rd w.mem K (ix va 3) = tableEntry (F₁ * 4096))
    (h₂ : rd w.mem F₁ (ix va 2) = tableEntry (F₂ * 4096)) (h₃ : rd w.mem F₂ (ix va 1) = tableEntry (F₃ * 4096)) :
    (mapPage va a flags p w).isSome = true := by
  have hK0 : ¬ K * 4096 = 0 := Nat.mul_ne_zero hK (by decide)
  have hbits : ∀ F ∈ [F₁, F₂, F₃], _ := fun F hF => tableEntry_bits (hlt F hF)
  have hensure : ∀ {f F : ℕ} {i : Fin 512}, F ∈ [F₁, F₂, F₃] → rd w.mem f i = tableEntry (F * 4096) →
      ensureTable (f * 4096) i w = some (F * 4096, w) := by
    intro f F i hF he
    unfold ensureTable
    rw [show entry w.mem (f * 4096) i = rd w.mem f i from rfl, he, (hbits F hF).1, (hbits F hF).2.2.2.2]
    rfl
  have hsplit : ∀ {f F level : ℕ} {i : Fin 512}, F ∈ [F₁, F₂, F₃] → rd w.mem f i = tableEntry (F * 4096) →
      splitIfHuge (f * 4096) i level w = some w := by
    intro f F level i hF he
    unfold splitIfHuge
    dsimp only
    rw [show entry w.mem (f * 4096) i = rd w.mem f i from rfl, he, (hbits F hF).2.1, Bool.and_false]
    rfl
  unfold mapPage
  simp only [hroot, if_neg hK0, pml4Idx_eq,
    pdptIdx_eq, pdIdx_eq, ptIdx_eq, Option.bind_eq_bind, hensure (by simp) h₁, hensure (by simp) h₂,
    hensure (by simp) h₃, hsplit (by simp) h₂, hsplit (by simp) h₃, Option.bind_some, Option.isSome_some]

theorem createUserPml4_blank {st' : State} (hK : K ≠ 0) (hF : F < maxManagedPages)
    (h : allocPage st = (F * 4096, st')) :
    createUserPml4 ⟨st, fun _ => 0, K * 4096⟩ = (F * 4096, ⟨st', fun _ => 0, K * 4096⟩) := by
  have hok : F * 4096 ≠ invalidPhysicalAddress := by
    have : maxManagedPages * 4096 < invalidPhysicalAddress := by decide
    omega
  have hK0 : ¬ K * 4096 = 0 := Nat.mul_ne_zero hK (by decide)
  have hcopy : forUp (fun i m => setEntry m (F * 4096) i (entry m (K * 4096) i)) 256 256 (fun _ => 0) = fun _ => 0 := by
    refine forUp_inv (P := fun _ m' => m' = fun _ => 0) 256 256 _ (fun i m' _ hi hm => ?_) rfl
    rw [hm]
    exact setEntry_blank (by omega) fun _ _ => rfl
  unfold createUserPml4
  rw [if_neg hK0, h]
  dsimp only
  rw [if_neg hok, zeroTable_blank fun _ _ => rfl, hcopy]

end Tori.Vmm
