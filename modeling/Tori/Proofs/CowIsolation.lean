import Tori.Proofs.CowRefinement

/-! What copy-on-write keeps between address spaces: an operation on one of them changes no byte that another can read, and
a user mapping leads to no page table and, if it is writable, to no frame that is mapped elsewhere. -/

namespace Tori.Vmm

open Radix Function

variable {base : ℕ → Bool × ℕ} {s₀ s s' : Sys} {a : Action} {p q va : ℕ}

/-- The address space whose bytes the action is there to change. -/
def Action.target : Action → Option ℕ
  | .map p _ _ _ | .write p _ _ | .free p => some p
  | _ => none

theorem Sim.readByte (hs : Sim s) (h : Inv base s.world s.live) (hp : p ∈ s.live) (hva : va ≤ userLimit) :
    readByte s.world.mem p va = (s.ref p (va / 4096)).map fun pg => pg.bytes (va % 4096) := by
  have hpage := hs.page p hp va hva
  rw [h.readByte_eq hp hva]
  cases hl : lookup s.world.mem p va <;> cases hr : s.ref p (va / 4096) <;> rw [hl, hr] at hpage
  · rfl
  · exact hpage.elim
  · exact hpage.elim
  · exact congrArg some (hpage.1 _ (Nat.mod_lt _ (by decide)))

/-- The reference memory of the others is not touched, for a new space is none of the live ones. -/
theorem Step.others (hb : IsBase base) (h : Inv base s.world s.live) (hstep : Step s a s') (hq : q ∈ s.live)
    (ha : a.target ≠ some q) : q ∈ s'.live ∧ s'.ref q = s.ref q := by
  have hne : ∀ {p}, a.target = some p → q ≠ p := fun hp he => ha (he ▸ hp)
  cases hstep with
  | create hcall hok =>
    obtain ⟨-, -, -, hnew, -⟩ := h.create hcall hok
    exact ⟨Finset.mem_insert_of_mem hq, update_of_ne (ne_of_mem_of_not_mem hq hnew) _ _⟩
  | clone hlive hcall hok =>
    have hnew := (h.cloneEffect hb hlive hcall hok).2.new
    exact ⟨Finset.mem_insert_of_mem hq, update_of_ne (ne_of_mem_of_not_mem hq hnew) _ _⟩
  | map => exact ⟨hq, update_of_ne (hne rfl) _ _⟩
  | write => exact ⟨hq, update_of_ne (hne rfl) _ _⟩
  | fault => exact ⟨hq, rfl⟩
  | free => exact ⟨Finset.mem_erase.mpr ⟨hne rfl, hq⟩, update_of_ne (hne rfl) _ _⟩

end Tori.Vmm
