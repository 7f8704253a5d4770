import Tori.Spec.Cow

/-! The kernel half of the address spaces. A user PML4 gets its upper 256 entries by value when it is made; the kernel's
own PML4 is changed by `map_page` and `unmap_page` with `pml4_phys` 0. -/

namespace Tori.Vmm

open Pmm Radix

/-- The kernel's world and the user PML4s made so far. -/
structure Spaces where
  world : World
  users : Finset ℕ

inductive HalfOp
  | create
  | clone (src : ℕ)
  | map (virtualAddress physicalAddress : ℕ) (flags : Flags)
  | unmap (virtualAddress : ℕ)

/-- 0 is the answer of a call that failed. -/
def addUser (pml4 : ℕ) (users : Finset ℕ) : Finset ℕ := if pml4 = 0 then users else insert pml4 users

/-- Calls that return; a panic of `map_page` is no step. -/
inductive HalfStep : Spaces → HalfOp → Spaces → Prop
  | create {w w' : World} {users : Finset ℕ} {pml4 : ℕ} (h : createUserPml4 w = (pml4, w')) :
      HalfStep ⟨w, users⟩ .create ⟨w', addUser pml4 users⟩
  | clone {w w' : World} {users : Finset ℕ} {src pml4 : ℕ} (hsrc : src ∈ users) (h : cloneAddressSpace src w = (pml4, w')) :
      HalfStep ⟨w, users⟩ (.clone src) ⟨w', addUser pml4 users⟩
  | map {w w' : World} {users : Finset ℕ} {va pa : ℕ} {flags : Flags} (hva : 256 ≤ pml4Idx va)
      (h : mapPage va pa flags 0 w = some w') : HalfStep ⟨w, users⟩ (.map va pa flags) ⟨w', users⟩
  | unmap {w w' : World} {users : Finset ℕ} {va : ℕ} (hva : 256 ≤ pml4Idx va) (h : unmapPage va 0 w = some w') :
      HalfStep ⟨w, users⟩ (.unmap va) ⟨w', users⟩

inductive HalfRun (allowed : Spaces → HalfOp → Prop) (s₀ : Spaces) : Spaces → Prop
  | start : HalfRun allowed s₀ s₀
  | step {s s' : Spaces} {op : HalfOp} (hrun : HalfRun allowed s₀ s) (hok : allowed s op) (hstep : HalfStep s op s') :
      HalfRun allowed s₀ s'

/-- Every user PML4 translates the kernel half as the kernel's does, and none of its entries points to a free page. -/
structure KernelShared (s : Spaces) : Prop where
  translation : ∀ p ∈ s.users, ∀ va, 256 ≤ pml4Idx va →
    walk s.world.mem p va = walk s.world.mem s.world.kernelPml4Phys va
  tables : ∀ p ∈ s.users, ∀ i < 512, has (entry s.world.mem p i) ptePresent = true →
    addrOf (entry s.world.mem p i) / 4096 < maxManagedPages →
    isPageUsed s.world.pmm (addrOf (entry s.world.mem p i) / 4096) = true

/-! ### The tables of the kernel half -/

def full (_ : ℕ) : ℕ := 512

/-- The tables with the lower half of the kernel's PML4, in frame `K`, left out. -/
def kernelRd (K : ℕ) (m : Mem) (f : ℕ) (i : Fin 512) : Entry := if f = K ∧ i.val < 256 then 0 else rd m f i

def kernelTree (K : ℕ) (m : Mem) : PTree := view cls full (kernelRd K m) 3 K

/-- The tables that the boot loader left: each is used once and none is free; PML4 entries have no page-size bit. -/
structure KernelTables (K : ℕ) (w : World) : Prop where
  root : w.kernelPml4Phys = K * 4096
  nonzero : K ≠ 0
  once : ∀ f, own f (kernelTree K w.mem) ≤ 1
  used : ∀ f, 0 < own f (kernelTree K w.mem) → f < maxManagedPages → isPageUsed w.pmm f = true
  top : ∀ i : Fin 512, 256 ≤ i.val → has (rd w.mem K i) ptePresent = true → has (rd w.mem K i) pteHuge = false

/-! ### Operations that leave the kernel's PML4 -/

def pml4e (m : Mem) (root va : ℕ) : Entry := entry m root (pml4Idx va)
def pdpte (m : Mem) (root va : ℕ) : Entry := entry m (addrOf (pml4e m root va)) (pdptIdx va)
def pde (m : Mem) (root va : ℕ) : Entry := entry m (addrOf (pdpte m root va)) (pdIdx va)
def pte (m : Mem) (root va : ℕ) : Entry := entry m (addrOf (pde m root va)) (ptIdx va)

/-- Another entry of the table is present. -/
def Others (m : Mem) (table i : ℕ) : Prop := ∃ j : Fin 512, j.val ≠ i ∧ has (entry m table j) ptePresent = true

/-- If `unmap_page` finds a page, it is not part of a huge one, and if there are user PML4s, the top table it is reached
through does not become empty. -/
def UnmapKeeps (m : Mem) (root va : ℕ) (users : Finset ℕ) : Prop :=
  has (pml4e m root va) ptePresent = true → has (pdpte m root va) ptePresent = true →
  has (pde m root va) ptePresent = true → has (pte m root va) ptePresent = true →
    has (pdpte m root va) pteHuge = false ∧ has (pde m root va) pteHuge = false ∧
    (users = ∅ ∨ Others m (addrOf (pde m root va)) (ptIdx va) ∨ Others m (addrOf (pdpte m root va)) (pdIdx va) ∨
      Others m (addrOf (pml4e m root va)) (pdptIdx va))

/-- Once there are user PML4s the top entries of the kernel half stay: a page is mapped below a present one, and
unmapping frees no top table. -/
def KeepsTop (s : Spaces) : HalfOp → Prop
  | .map va _ _ => s.users = ∅ ∨ has (pml4e s.world.mem s.world.kernelPml4Phys va) ptePresent = true
  | .unmap va => UnmapKeeps s.world.mem s.world.kernelPml4Phys va s.users
  | _ => True

end Tori.Vmm
