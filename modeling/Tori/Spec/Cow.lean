import Tori.Spec.Vmm
import Tori.Lib.Radix

/-! Runs of address-space operations, with the deep-copy memory they are meant to implement.
The user half of a PML4 is read as a radix tree, entry by entry as the loops of `vmm.cpp` do;
`tables` and `leaves` count page-table pages and present leaf entries over all live spaces. -/

namespace Tori.Vmm

open Pmm Radix

/-- Slot `i` of the table in frame `f`. -/
def rd (m : Mem) (f : ℕ) (i : Fin 512) : Entry := entry m (f * 4096) i

/-- How the walks of `vmm.cpp` read an entry of an upper table. -/
def cls (e : Entry) : Kind :=
  if !has e ptePresent then .empty else if has e pteHuge then .big else .table (addrOf e / 4096)

/-- Only the lower half of a PML4 belongs to the user. -/
def cap (d : ℕ) : ℕ := if d = 3 then 256 else 512

abbrev PTree : Type := Trie Entry 512

def tree (m : Mem) (pml4 : ℕ) : PTree := view cls cap (rd m) 3 (pml4 / 4096)

/-- How many references to frame `q` a leaf entry holds. -/
def refs (q : ℕ) (e : Entry) : ℕ := if has e ptePresent = true ∧ addrOf e = q * 4096 then 1 else 0

/-- How many tables of live address spaces lie in frame `q`. -/
def tables (m : Mem) (live : Finset ℕ) (q : ℕ) : ℕ := ∑ p ∈ live, own q (tree m p)

/-- How many present leaf entries of live address spaces map frame `q`. -/
def leaves (m : Mem) (live : Finset ℕ) (q : ℕ) : ℕ := ∑ p ∈ live, cnt (refs q) (tree m p)

/-! ### The reference memory -/

/-- A page of the deep-copy model. -/
structure RefPage where
  bytes : ℕ → BitVec 8
  writable : Bool
  user : Bool

/-- The kernel's world, the live address spaces, and for each of them a private memory:
address space ↦ page number ↦ page. -/
structure Sys where
  world : World
  live : Finset ℕ
  ref : ℕ → ℕ → Option RefPage

def RefPage.write (pg : RefPage) (off : ℕ) (b : BitVec 8) : RefPage :=
  { pg with bytes := Function.update pg.bytes off b }

inductive Action where
  | create
  | map (pml4 va : ℕ) (flags : Flags) (content : ℕ → BitVec 8)
  | clone (src : ℕ)
  | write (pml4 va : ℕ) (b : BitVec 8)
  | fault (pml4 va errorCode : ℕ)
  | free (pml4 : ℕ)

/-- The owner of a fresh frame fills it before it is mapped. -/
def fillPage (phys : ℕ) (content : ℕ → BitVec 8) (m : Mem) : Mem := fun x =>
  if x / 4096 = phys / 4096 then content (x % 4096) else m x

/-- One operation on a live address space, with every allocation it makes succeeding. -/
inductive Step : Sys → Action → Sys → Prop
  | create {w w' : World} {live : Finset ℕ} {ref : ℕ → ℕ → Option RefPage} {pml4 : ℕ}
      (h : createUserPml4 w = (pml4, w')) (hok : pml4 ≠ 0) :
      Step ⟨w, live, ref⟩ .create ⟨w', insert pml4 live, Function.update ref pml4 fun _ => none⟩
  | map {w w' : World} {live : Finset ℕ} {ref : ℕ → ℕ → Option RefPage} {pml4 va phys : ℕ}
      {flags : Flags} {content : ℕ → BitVec 8} {pmm : State} (hlive : pml4 ∈ live)
      (hva : va ≤ userLimit) (hun : walk w.mem pml4 va = none) (hpresent : flags.present = true)
      (halloc : allocPage w.pmm = (phys, pmm)) (hok : phys ≠ invalidPhysicalAddress)
      (h : mapPage va phys flags pml4 { w with pmm := pmm, mem := fillPage phys content w.mem } = some w') :
      Step ⟨w, live, ref⟩ (.map pml4 va flags content)
        ⟨w', live, Function.update ref pml4 (Function.update (ref pml4) (va / 4096)
          (some ⟨content, flags.writable, flags.user⟩))⟩
  | clone {w w' : World} {live : Finset ℕ} {ref : ℕ → ℕ → Option RefPage} {src dst : ℕ}
      (hlive : src ∈ live) (h : cloneAddressSpace src w = (dst, w')) (hok : dst ≠ 0) :
      Step ⟨w, live, ref⟩ (.clone src) ⟨w', insert dst live, Function.update ref dst (ref src)⟩
  | write {w w' : World} {live : Finset ℕ} {ref : ℕ → ℕ → Option RefPage} {pml4 va : ℕ}
      {b : BitVec 8} {pg : RefPage} (hlive : pml4 ∈ live) (hva : va ≤ userLimit)
      (hpg : ref pml4 (va / 4096) = some pg) (hwr : pg.writable = true)
      (h : userWrite pml4 va b w = some w') :
      Step ⟨w, live, ref⟩ (.write pml4 va b)
        ⟨w', live, Function.update ref pml4 (Function.update (ref pml4) (va / 4096)
          (some (pg.write (va % 4096) b)))⟩
  | fault {w w' : World} {live : Finset ℕ} {ref : ℕ → ℕ → Option RefPage} {pml4 va err : ℕ} {ok : Bool}
      (hlive : pml4 ∈ live) (h : handleCowFault va err pml4 w = (ok, w')) :
      Step ⟨w, live, ref⟩ (.fault pml4 va err) ⟨w', live, ref⟩
  | free {w : World} {live : Finset ℕ} {ref : ℕ → ℕ → Option RefPage} {pml4 : ℕ} (hlive : pml4 ∈ live) :
      Step ⟨w, live, ref⟩ (.free pml4)
        ⟨freeAddressSpace pml4 w, live.erase pml4, Function.update ref pml4 fun _ => none⟩

/-- A run whose actions satisfy `allowed`, with at most 65535 leaf entries a frame. -/
inductive Run (allowed : Sys → Action → Prop) (s₀ : Sys) : Sys → Prop
  | start : Run allowed s₀ s₀
  | step {s s' : Sys} {a : Action} (hrun : Run allowed s₀ s) (ha : allowed s a) (hstep : Step s a s')
      (hbound : ∀ q, leaves s'.world.mem s'.live q ≤ uint16Max) : Run allowed s₀ s'

/-- No address space exists yet, and the page allocator has been used as in `Pmm.ClientRun`. -/
def Start (s : Sys) : Prop :=
  s.live = ∅ ∧ ∃ bootInfo c, ClientRun bootInfo c ∧ s.world.pmm = c.pmm

end Tori.Vmm
