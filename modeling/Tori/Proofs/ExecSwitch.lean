import Tori.Proofs.ForkCopy

/-! `sys_exec` loads the new image but does not switch to it: neither the saved registers nor CR3 change, and
the address space that CR3 still points to has been freed. -/

namespace Tori.Kernel

open Radix Vmm Proc

/-- The switch to the loaded image. `after` are the states since the old tables were freed, the last one is `s'`. -/
structure Switched (thread : Addr) (frame : ℕ) (image : ElfLoadResult) (s' : Machine) (after : List Machine) : Prop where
  rip : (syscallReturn 0 frame s'.world.mem).userRip = image.entry
  rsp : (syscallReturn 0 frame s'.world.mem).userRsp = image.stackTop
  cr3 : s'.cr3 = (s'.procs.proc (s'.thread thread).process).pml4Phys
  kept : ∀ st ∈ after, ∀ q, 0 < own q (tree st.world.mem st.cr3) → Pmm.isPageUsed st.world.pmm q = true

/-- `elf64_load` into one of the live address spaces keeps the page accounting. -/
def LoadsInto (base : ℕ → Bool × ℕ) (elf64Load : ℕ → World → ℤ × ElfLoadResult × World) : Prop :=
  ∀ live p w, Inv base w live → p ∈ live → Inv base (elf64Load p w).2.2 live

variable {thread : Addr} {file : Option (ℕ → World → ℤ × ElfLoadResult × World)} {s s' : Machine} {after : List Machine}

/-- The parts of a successful `sys_exec`. -/
structure Execed (thread : Addr) (elf64Load : ℕ → World → ℤ × ElfLoadResult × World) (s : Machine) (newPml4 : ℕ)
    (w : World) (s' : Machine) (after : List Machine) : Prop where
  made : createUserPml4 s.world = (newPml4, w)
  newPml4_ne : newPml4 ≠ 0
  pml4Phys : (s'.procs.proc (s'.thread thread).process).pml4Phys = newPml4
  world : ∀ st ∈ after, st.world =
    freeAddressSpace (s.procs.proc (s.thread thread).process).pml4Phys (elf64Load newPml4 w).2.2
  cr3 : ∀ st ∈ after, st.cr3 = s.cr3
  last : s' ∈ after

theorem sysExec_ok (h : sysExec thread file s = (0, s', after)) :
    ∃ elf64Load newPml4 w, file = some elf64Load ∧ Execed thread elf64Load s newPml4 w s' after := by
  cases file with
  | none => exact absurd (Prod.mk.inj h).1 (by decide)
  | some elf64Load =>
    unfold sysExec at h
    rcases hc : createUserPml4 s.world with ⟨newPml4, w⟩
    rw [hc] at h
    dsimp only at h
    split_ifs at h with h0 herr
    · exact absurd (Prod.mk.inj h).1 (by decide)
    · exact absurd (Prod.mk.inj h).1 (ne_of_lt herr)
    · obtain ⟨-, h⟩ := Prod.mk.inj h
      obtain ⟨hs', hafter⟩ := Prod.mk.inj h
      refine ⟨elf64Load, newPml4, w, rfl, hc, h0, ?_, ?_, ?_, ?_⟩
      · rw [← hs']
        simp only [Function.update_self, proc_modify_self]
      · rw [← hafter]
        simp
      · rw [← hafter]
        simp
      · rw [← hafter, ← hs']
        simp

variable {base : ℕ → Bool × ℕ} {live : Finset ℕ} {w : World}

/-- The new page table is none of the live ones, so a machine that ran on one of these does not run on it. -/
theorem Execed.not_switched {elf64Load : ℕ → World → ℤ × ElfLoadResult × World} {newPml4 frame : ℕ}
    {image : ElfLoadResult} (h : Execed thread elf64Load s newPml4 w s' after)
    (hinv : Inv base s.world live) (hcr3 : s.cr3 ∈ live) : ¬Switched thread frame image s' after := by
  intro hs
  obtain ⟨-, -, -, hnew, -⟩ := hinv.create h.made h.newPml4_ne
  have hsame : s.cr3 = newPml4 := by
    rw [← h.cr3 s' h.last, hs.cr3, h.pml4Phys]
  exact hnew (hsame ▸ hcr3)

theorem root_free {p : ℕ} (hinv : Inv base w live) (hb : IsBase base)
    (hp : p ∈ live) : Pmm.isPageUsed (freeAddressSpace p w).pmm (p / 4096) = false := by
  obtain ⟨hmem, hinv'⟩ := hinv.free hb hp
  have hown : 0 < own (p / 4096) (tree w.mem p) := own_root_pos
  have hone := hinv.single (p / 4096)
  have hsum : tables w.mem (live.erase p) (p / 4096) + own (p / 4096) (tree w.mem p) = tables w.mem live (p / 4096) :=
    Finset.sum_erase_add live _ hp
  have hapart := hinv.apart (p / 4096) (by omega)
  have hleaves : leaves w.mem (live.erase p) (p / 4096) ≤ leaves w.mem live (p / 4096) :=
    Finset.sum_le_sum_of_subset (Finset.erase_subset p live)
  have hbase := hinv.taken (p / 4096) (by omega)
  rw [← Bool.not_eq_true, hinv'.used_iff, hmem, hbase]
  simp only [Bool.false_eq_true, or_false]
  omega

/-- No `sys_exec` that returns 0 switches to the new image: CR3 stays on the old page table, and its root is free. -/
theorem exec_never_switches {base : ℕ → Bool × ℕ} {live : Finset ℕ} (hb : IsBase base) (hinv : Inv base s.world live)
    (hlive : (s.procs.proc (s.thread thread).process).pml4Phys ∈ live)
    (hcr3 : s.cr3 = (s.procs.proc (s.thread thread).process).pml4Phys)
    (hexec : sysExec thread file s = (0, s', after)) :
    (∀ frame image, ¬Switched thread frame image s' after) ∧ s' ∈ after ∧ (∀ st ∈ after, st.cr3 = s.cr3) ∧
      ((∀ elf64Load, file = some elf64Load → LoadsInto base elf64Load) →
        ∀ st ∈ after, Pmm.isPageUsed st.world.pmm (st.cr3 / 4096) = false) := by
  obtain ⟨elf64Load, newPml4, w, hfile, h⟩ := sysExec_ok hexec
  refine ⟨fun frame image hs => ?_, h.last, h.cr3, fun hload st hst => ?_⟩
  · exact h.not_switched hinv (hcr3 ▸ hlive) hs
  · obtain ⟨f', -, hcreated, -⟩ := hinv.create h.made h.newPml4_ne
    have hloaded := hload elf64Load hfile _ newPml4 w hcreated (Finset.mem_insert_self _ _)
    rw [h.world st hst, h.cr3 st hst, hcr3]
    exact root_free hloaded hb (Finset.mem_insert_of_mem hlive)

theorem smallUser_next : createUserPml4 smallUser = (0x2000, (createUserPml4 smallUser).2) :=
  Prod.fst_eq_iff.mp (by decide +kernel)

theorem oneProcess_execs {elf64Load : ℕ → World → ℤ × ElfLoadResult × World}
    (hload : 0 ≤ (elf64Load 0x2000 (createUserPml4 smallUser).2).1) :
    ∃ s' after, sysExec 3 (some elf64Load) (oneProcess 0) = (0, s', after) := by
  unfold sysExec
  rw [show (oneProcess 0).world = smallUser from rfl, smallUser_next]
  dsimp only
  rw [if_neg (by decide), if_neg (not_lt.mpr hload)]
  exact ⟨_, _, rfl⟩

theorem exec_never_switches_small :
    ∃ s' after, sysExec 3 (some fun _ w => (0, ⟨0x401000, 0x7FFFF000FFE8, 0x500000⟩, w)) (oneProcess 0) = (0, s', after) ∧
      s' ∈ after ∧ ∀ st ∈ after, st.cr3 = 0x1000 ∧ Pmm.isPageUsed st.world.pmm 1 = false := by
  obtain ⟨s', after, hexec⟩ := @oneProcess_execs (fun _ w => (0, ⟨0x401000, 0x7FFFF000FFE8, 0x500000⟩, w)) le_rfl
  obtain ⟨-, hlast, hcr3, hfree⟩ := exec_never_switches (isBase_of_start start_small) smallUser_inv
    (Finset.mem_singleton.mpr (oneProcess_pml4Phys 0)) (oneProcess_pml4Phys 0).symm hexec
  have hroot := hfree fun elf64Load hload live p w hinv _ => by
    cases hload
    exact hinv
  refine ⟨s', after, hexec, hlast, fun st hst => ⟨hcr3 st hst, ?_⟩⟩
  have hpage := hroot st hst
  rw [hcr3 st hst] at hpage
  exact hpage

/-- Whatever image is loaded into the new page table at 0x2000, the machine runs on with the one at 0x1000. -/
theorem exec_stays_on_old_tables :
    (createUserPml4 smallUser).1 = 0x2000 ∧ ∀ elf64Load : ℕ → World → ℤ × ElfLoadResult × World,
      0 ≤ (elf64Load 0x2000 (createUserPml4 smallUser).2).1 →
        ∃ s' after, sysExec 3 (some elf64Load) (oneProcess 0) = (0, s', after) ∧ s'.cr3 = 0x1000 ∧
          (s'.procs.proc (s'.thread 3).process).pml4Phys = 0x2000 ∧ ∀ frame image, ¬Switched 3 frame image s' after := by
  refine ⟨congrArg Prod.fst smallUser_next, fun elf64Load hload => ?_⟩
  obtain ⟨s', after, hexec⟩ := oneProcess_execs hload
  obtain ⟨_, newPml4, w, -, h⟩ := sysExec_ok hexec
  have hnew : newPml4 = 0x2000 := congrArg Prod.fst (h.made.symm.trans smallUser_next)
  exact ⟨s', after, hexec, h.cr3 s' h.last, h.pml4Phys.trans hnew,
    fun frame image => h.not_switched smallUser_inv (Finset.mem_singleton_self _)⟩

end Tori.Kernel
