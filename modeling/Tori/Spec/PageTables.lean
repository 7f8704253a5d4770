import Tori.Spec.Cow
import Tori.Sanity.Pmm
import Tori.Lib.RadixWalk

/-! What `map_page` and `unmap_page` are for, on any tree of page tables, with 1 GiB and 2 MiB entries: the translation of
one page changes, that of every other address stays. -/

namespace Tori.Vmm

open Pmm RadixWalk

def pteNoExecute : Entry := 1#64 <<< 63

/-- Where an address leads and what may be done there. -/
structure Access where
  phys : ℕ
  writable : Bool
  user : Bool
  noExecute : Bool

/-- The walk of the processor, as `walk`, with the no-execute bit. -/
def access (m : Mem) (pml4 va : ℕ) : Option Access :=
  let e4 := entry m pml4 (pml4Idx va)
  if !has e4 ptePresent then none
  else
    let e3 := entry m (addrOf e4) (pdptIdx va)
    let w3 := has e4 pteWritable && has e3 pteWritable
    let u3 := has e4 pteUser && has e3 pteUser
    let x3 := has e4 pteNoExecute || has e3 pteNoExecute
    if !has e3 ptePresent then none
    else if has e3 pteHuge then some ⟨addrOf e3 / 2 ^ 30 * 2 ^ 30 + va % 2 ^ 30, w3, u3, x3⟩
    else
      let e2 := entry m (addrOf e3) (pdIdx va)
      let w2 := w3 && has e2 pteWritable
      let u2 := u3 && has e2 pteUser
      let x2 := x3 || has e2 pteNoExecute
      if !has e2 ptePresent then none
      else if has e2 pteHuge then some ⟨addrOf e2 / 2 ^ 21 * 2 ^ 21 + va % 2 ^ 21, w2, u2, x2⟩
      else
        let e1 := entry m (addrOf e2) (ptIdx va)
        if !has e1 ptePresent then none
        else some ⟨addrOf e1 + va % 2 ^ 12, w2 && has e1 pteWritable, u2 && has e1 pteUser, x2 || has e1 pteNoExecute⟩

/-- The 4 KiB entry that maps `va`. -/
def smallEntry (m : Mem) (pml4 va : ℕ) : Option Entry :=
  let e4 := entry m pml4 (pml4Idx va)
  if !has e4 ptePresent then none
  else
    let e3 := entry m (addrOf e4) (pdptIdx va)
    if !has e3 ptePresent || has e3 pteHuge then none
    else
      let e2 := entry m (addrOf e3) (pdIdx va)
      if !has e2 ptePresent || has e2 pteHuge then none
      else
        let e1 := entry m (addrOf e2) (ptIdx va)
        if has e1 ptePresent then some e1 else none

/-- The page of an address; the walk reads 48 bits. -/
def pageOf (va : ℕ) : ℕ := va % 2 ^ 48 / 4096

/-- The table that an upper entry leads to. -/
def nextTable (e : Entry) : Option ℕ := if has e ptePresent && !has e pteHuge then some (addrOf e / 4096) else none

/-- `f` is a table of the tree with the PML4 in frame `r`. -/
def TableOf (r : ℕ) (m : Mem) (f : ℕ) : Prop := IsTable nextTable (rd m) 3 r f

/-- A tree of page tables: no two paths meet in a table. Bit 7 of a PML4 entry is reserved. -/
structure PageTables (r : ℕ) (m : Mem) : Prop where
  unshared : Unshared nextTable (rd m) 3 r
  top : ∀ i, has (rd m r i) ptePresent = true → has (rd m r i) pteHuge = false

/-- The tables below the root come from the page allocator. -/
def Held (r : ℕ) (w : World) : Prop :=
  ∀ f, TableOf r w.mem f → f ≠ r → f < maxManagedPages ∧ isPageUsed w.pmm f = true

/-- What `unmap_page` may do. -/
structure ExactUnmap (r va : ℕ) (w w' : World) : Prop where
  others : ∀ va', pageOf va' ≠ pageOf va → access w'.mem (r * 4096) va' = access w.mem (r * 4096) va'
  writes : ∀ x, w'.mem x ≠ w.mem x → TableOf r w.mem (x / 4096)
  /-- A page given back is a table without present entries, and not the root. -/
  frees : ∀ f, pageState w'.pmm f ≠ pageState w.pmm f →
    f ≠ r ∧ TableOf r w.mem f ∧ ∀ i, has (rd w'.mem f i) ptePresent = false
  /-- Exactly the pages given back are unlinked. -/
  tables : ∀ f, TableOf r w'.mem f ↔ TableOf r w.mem f ∧ pageState w'.pmm f = pageState w.pmm f
  unmapped : smallEntry w'.mem (r * 4096) va = none

/-- `unmap_page` gets to its store by way of a huge entry: it has read data as page tables. -/
def Stray (m : Mem) (pml4 va : ℕ) : Prop :=
  let e4 := entry m pml4 (pml4Idx va)
  let e3 := entry m (addrOf e4) (pdptIdx va)
  let e2 := entry m (addrOf e3) (pdIdx va)
  let e1 := entry m (addrOf e2) (ptIdx va)
  (has e4 ptePresent = true ∧ has e3 ptePresent = true ∧ has e2 ptePresent = true ∧ has e1 ptePresent = true) ∧
    (has e3 pteHuge = true ∨ has e2 pteHuge = true)

end Tori.Vmm
