import Tori.Sanity.VmmBlank
import Tori.Proofs.KernelTables
import Tori.Proofs.FrameAccounting

/-! The kernel half stays shared as long as the top entries of the kernel's PML4 stay: a new address space copies them,
and `map_page` and `unmap_page` work below them. -/

namespace Tori.Vmm

open Loop Pmm Radix RadixWalk

variable {K : ℕ} {w w' : World} {users : Finset ℕ} {m : Mem}

/-! ### New address spaces -/

theorem Shared.add (h : Shared K w users) {F : ℕ} (ha : Allocated w w' F)
    (hlow : ∀ i : Fin 512, i.val < 256 → rd w'.mem F i = 0)
    (htop : ∀ i : Fin 512, 256 ≤ i.val → rd w'.mem F i = rd w.mem K i) : Shared K w' (addUser (F * 4096) users) := by
  have hF := h.fresh ha
  have hKF := h.ne_fresh ha
  have hsame : ∀ jx l, tableAt nextTable (kernelRd K w'.mem) jx l 3 K = tableAt nextTable (kernelRd K w.mem) jx l 3 K :=
    fun jx l => tableAt_congr fun l g _ hg =>
      congrFun (kernelRd_congr (ha.rd fun heq => hF (heq ▸ ⟨jx, l, hg⟩))) _
  have htable : ∀ f, HalfTable K w'.mem f ↔ HalfTable K w.mem f := fun f =>
    exists_congr fun jx => exists_congr fun l => by rw [hsame]
  refine ⟨ha.kernel.trans h.root, h.nonzero, h.unshared.mono fun jx l g hg => (hsame jx l).symm.trans hg,
    fun f hf hlt => ha.kept (h.used f ((htable f).1 hf) hlt), ?_, fun p hp => ?_⟩
  · rw [ha.rd hKF]
    exact h.top
  · simp only [htable, ha.rd hKF]
    have hcases : p = F * 4096 ∨ p ∈ users := by
      unfold addUser at hp
      split_ifs at hp
      · exact .inr hp
      · exact Finset.mem_insert.1 hp
    rcases hcases with rfl | hp
    · exact ⟨F, rfl, ha.used, hF, hlow, htop⟩
    · obtain ⟨u, rfl, hused, hnot, hlow', htop'⟩ := h.user p hp
      refine ⟨u, rfl, ha.kept hused, hnot, ?_⟩
      rw [ha.rd (ha.ne_of_used hused)]
      exact ⟨hlow', htop'⟩

theorem Shared.createUserPml4 (h : Shared K w users) {pml4 : ℕ} (hcall : createUserPml4 w = (pml4, w')) :
    Shared K w' (addUser pml4 users) := by
  rcases createUserPml4_cases hcall with ⟨rfl, rfl⟩ | ⟨F, rfl, ha, hlow, htop⟩
  · exact h
  · exact h.add ha hlow (htop K h.root (h.ne_fresh ha))

theorem Shared.cloneAddressSpace (h : Shared K w users) {src pml4 : ℕ} (hsrc : src ∈ users)
    (hcall : cloneAddressSpace src w = (pml4, w')) : Shared K w' (addUser pml4 users) := by
  obtain ⟨u, rfl, hused, -, hlow, htop⟩ := h.user src hsrc
  rcases cloneAddressSpace_cases hused hlow hcall with ⟨rfl, rfl⟩ | ⟨F, rfl, ha, hlow', htop'⟩
  · exact h
  · exact h.add ha hlow' fun i hi => (htop' i hi).trans (htop i hi)

/-! ### Runs -/

theorem Shared.step {s s' : Spaces} {op : HalfOp} (h : Shared K s.world s.users) (hok : KeepsTop s op)
    (hstep : HalfStep s op s') : Shared K s'.world s'.users := by
  cases hstep with
  | create hcall => exact h.createUserPml4 hcall
  | clone hsrc hcall => exact h.cloneAddressSpace hsrc hcall
  | map hva hcall =>
    refine h.mapPage hva (hok.imp_right fun hp => ?_) hcall
    rw [pml4e, h.root, ← ix_three] at hp
    exact hp
  | unmap hva hcall => exact h.unmapPage hva hok hcall

theorem kernelTables_blank {pmm : State} (hused : isPageUsed pmm 0x100 = true) :
    KernelTables 0x100 ⟨pmm, fun _ => 0, 0x100 * 4096⟩ := by
  have hzero : ∀ f i, rd (fun _ => 0) f i = 0 := fun f i => rfl
  have hown : ∀ q, own q (kernelTree 0x100 fun _ => 0) = if 0x100 = q then 1 else 0 := by
    refine own_view_bare fun _ i g => ?_
    rw [kernelRd, hzero, ite_self]
    exact fun h => by cases h
  refine ⟨rfl, by decide, fun f => ?_, fun f hpos _ => ?_, fun i _ hp => ?_⟩
  · rw [hown]
    split_ifs <;> decide
  · rw [hown] at hpos
    split_ifs at hpos with hf
    · rw [← hf]
      exact hused
    · cases hpos
  · rw [hzero, absent_zero] at hp
    cases hp

theorem kernelTables_small : KernelTables 0x100 smallStart.world := by
  rw [smallStart_blank]
  exact kernelTables_blank (by decide +kernel)

/-- In every run that keeps the top entries once there are user PML4s, the kernel half is shared. -/
theorem kernel_half_shared {K : ℕ} {w₀ : World} (h₀ : KernelTables K w₀) {s : Spaces}
    (hrun : HalfRun KeepsTop ⟨w₀, ∅⟩ s) : KernelShared s := by
  have hshared : Shared K s.world s.users := by
    induction hrun with
    | start => exact h₀.shared
    | step _ hok hstep ih => exact ih.step hok hstep
  exact hshared.kernelShared

/-- The first page of the kernel half. -/
def halfStart : ℕ := 0xFFFF800000000000

def kernelFlags : Flags := ⟨true, true, false, false, false, false, false, false⟩

def kernelPage (a : ℕ) : Entry := (BitVec.ofNat 64 a &&& pteAddrMask) ||| kernelFlags.toEntry

theorem map_small {n : ℕ} (hn : n ≤ 1) : mapPage halfStart 0x8000 kernelFlags 0 ⟨pagesTaken n, fun _ => 0, 0x100 * 4096⟩ =
    some ⟨pagesTaken (n + 3), onePage 0x100 (n + 1) (n + 2) (n + 3) halfStart (kernelPage 0x8000), 0x100 * 4096⟩ := by
  have h₁ := pagesTaken_next (n := n) (by omega)
  have h₂ := pagesTaken_next (n := n + 1) (by omega)
  have h₃ := pagesTaken_next (n := n + 2) (by omega)
  refine mapPage_blank rfl (by decide) ?_ ?_ h₁ h₂ h₃
  · interval_cases n <;> decide
  · interval_cases n <;> decide

/-- A page is mapped, an address space made, and a second page mapped next to the first. -/
theorem two_pages_shared : ∃ s, HalfRun KeepsTop ⟨smallStart.world, ∅⟩ s ∧ s.users = {0x4000} ∧ KernelShared s := by
  set m₁ := onePage 0x100 1 2 3 halfStart (kernelPage 0x8000) with hm₁
  have hmap : mapPage halfStart 0x8000 kernelFlags 0 smallStart.world = some ⟨pagesTaken 3, m₁, 0x100 * 4096⟩ := by
    rw [smallStart_blank]
    exact map_small (by decide)
  have hfirst : (createUserPml4 ⟨pagesTaken 3, m₁, 0x100 * 4096⟩).1 = 0x4000 := by decide +kernel
  obtain ⟨w₂, hcreate⟩ : ∃ w₂, createUserPml4 ⟨pagesTaken 3, m₁, 0x100 * 4096⟩ = (0x4000, w₂) :=
    ⟨_, Prod.fst_eq_iff.mp hfirst⟩
  obtain ⟨F, hF, ha, -, -⟩ := createUserPml4_spec hcreate (by decide)
  obtain rfl : F = 4 := by omega
  have hrd : ∀ g, g ≠ 4 → rd w₂.mem g = rd m₁ g := fun g hg => ha.rd hg
  set va := halfStart + 0x1000
  have hrow : rd m₁ 0x100 (ix va 3) = tableEntry (1 * 4096) ∧ rd m₁ 1 (ix va 2) = tableEntry (2 * 4096) ∧
      rd m₁ 2 (ix va 1) = tableEntry (3 * 4096) := by decide +kernel
  rw [← hrd 0x100 (by decide), ← hrd 1 (by decide), ← hrd 2 (by decide)] at hrow
  obtain ⟨w₃, hmap₂⟩ := Option.isSome_iff_exists.1 (mapPage_present 0x9000 kernelFlags
    (by decide) (show resolvePml4 w₂ 0 = 0x100 * 4096 from ha.kernel) (by decide) hrow.1 hrow.2.1 hrow.2.2)
  have hok₁ : KeepsTop ⟨smallStart.world, ∅⟩ (.map halfStart 0x8000 kernelFlags) := .inl rfl
  have hok₂ : KeepsTop ⟨⟨pagesTaken 3, m₁, 0x100 * 4096⟩, ∅⟩ .create := trivial
  have hok₃ : KeepsTop ⟨w₂, addUser 0x4000 ∅⟩ (.map va 0x9000 kernelFlags) := by
    refine .inr ?_
    rw [pml4e, show w₂.kernelPml4Phys = 0x100 * 4096 from ha.kernel, pml4Idx_eq,
      show entry w₂.mem (0x100 * 4096) (ix va 3) = _ from hrow.1]
    exact (tableEntry_bits (by decide)).1
  have hrun : HalfRun KeepsTop ⟨smallStart.world, ∅⟩ ⟨w₃, addUser 0x4000 ∅⟩ :=
    .step (.step (.step .start hok₁ (.map (by decide) hmap)) hok₂ (.create hcreate)) hok₃ (.map (by decide) hmap₂)
  exact ⟨_, hrun, rfl, kernel_half_shared kernelTables_small hrun⟩

/-- A page mapped under a new top entry after the address space is made is missing from it. -/
theorem new_top_entry_not_shared : ∃ s, HalfRun (fun _ _ => True) ⟨smallStart.world, ∅⟩ s ∧ s.users = {0x1000} ∧
    (walk s.world.mem s.world.kernelPml4Phys halfStart).map Translation.phys = some 0x8000 ∧
    (walk s.world.mem 0x1000 halfStart).map Translation.phys = none ∧ ¬ KernelShared s := by
  have hcreate := createUserPml4_blank (K := 0x100) (by decide) (by decide) (pagesTaken_next (n := 0) (by decide))
  rw [← smallStart_blank] at hcreate
  have hrun : HalfRun (fun _ _ => True) ⟨smallStart.world, ∅⟩ ⟨_, addUser 0x1000 ∅⟩ :=
    .step (.step .start trivial (.create hcreate)) trivial (.map (by decide) (map_small le_rfl))
  have hkernel : (walk (onePage 0x100 2 3 4 halfStart (kernelPage 0x8000)) (0x100 * 4096) halfStart).map Translation.phys =
      some 0x8000 := by decide +kernel
  have huser : (walk (onePage 0x100 2 3 4 halfStart (kernelPage 0x8000)) 0x1000 halfStart).map Translation.phys = none := by
    decide +kernel
  refine ⟨_, hrun, rfl, hkernel, huser, fun hshared => ?_⟩
  have hsame := hshared.translation 0x1000 (Finset.mem_insert_self _ _) halfStart (by decide)
  have hphys := huser.symm.trans ((congrArg (Option.map Translation.phys) hsame).trans hkernel)
  cases hphys

end Tori.Vmm
