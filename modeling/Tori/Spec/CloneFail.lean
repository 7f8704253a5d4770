import Tori.Spec.PageTables

/-! What `clone_address_space` owes its caller when it returns 0, and the states in which it pays: the page allocator and
the translations of the source are as before. -/

namespace Tori.Vmm

open Pmm Radix

def freePages (s : State) : ℕ := ((Finset.range maxManagedPages).filter fun q => isPageUsed s q = false).card

/-- Where a page lies and what the program may do there; a write to a copy-on-write page is resolved. -/
def logical (e : Entry) : ℕ × Bool × Bool := (addrOf e, has e pteWritable || has e pteCow, has e pteUser)

structure NoTrace (src : ℕ) (w w' : World) : Prop where
  used : ∀ q, isPageUsed w'.pmm q = isPageUsed w.pmm q
  refcounts : ∀ q, w'.pmm.pageRefcounts q = w.pmm.pageRefcounts q
  access : ∀ va ≤ userLimit, (smallEntry w'.mem src va).map logical = (smallEntry w.mem src va).map logical

/-- `clone_table` runs out of pages, `r` of them being left at its start, before any table below it is complete. -/
def GivesBack : PTree → ℕ → Prop
  | .leaf _ _, _ => True
  | .ptr _ t, r => GivesBack t r
  | .node _ kid, r => r = 0 ∨ ∃ i, (∀ j < i, size (kid j) = 0) ∧ r - 1 < size (kid i) ∧ GivesBack (kid i) (r - 1)
  | _, _ => False

/-- The tables copied when `clone_address_space` comes to entry `i`, with the PML4. -/
def copied (m : Mem) (src i : ℕ) : PTree := upTo cls cap i (rd m) 2 (src / 4096)

/-- The tables behind slot `i` of the table in frame `f`. -/
def behind (m : Mem) (d f : ℕ) (i : Fin 512) : PTree := kidOf cls (view cls cap (rd m) d) (rd m f i)

/-- Entry `i` is the one that fails, with nothing complete below it, and the references taken before it can be
given back: no count was 0 or got stuck at its maximum. -/
structure FailsAt (src : ℕ) (w : World) (i : Fin 512) : Prop where
  user : i.val < 256
  enough : size (copied w.mem src i) ≤ freePages w.pmm
  short : freePages w.pmm - size (copied w.mem src i) < size (behind w.mem 2 (src / 4096) i)
  early : GivesBack (behind w.mem 2 (src / 4096) i) (freePages w.pmm - size (copied w.mem src i))
  counts : ∀ q, 0 < cnt (refs q) (copied w.mem src i) →
    1 ≤ w.pmm.pageRefcounts q ∧ w.pmm.pageRefcounts q + cnt (refs q) (copied w.mem src i) ≤ uint16Max

end Tori.Vmm
