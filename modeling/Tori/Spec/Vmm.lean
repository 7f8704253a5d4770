import Tori.Spec.Pmm
import Tori.Lib.ByteMem

/-! Page tables (`kernel/src/memory/vmm.cpp`) over a byte-addressed physical memory.
The direct map is a bijection, so `get_table` is the table's physical address.
`flush_tlb` and `invlpg` do not change memory and are left out; `TORI_PANIC` is `none`. -/

namespace Tori.Vmm

open Loop Pmm

abbrev Entry : Type := BitVec 64

def ptePresent : Entry := 1#64 <<< 0
def pteWritable : Entry := 1#64 <<< 1
def pteUser : Entry := 1#64 <<< 2
def pteHuge : Entry := 1#64 <<< 7
def pteCow : Entry := 1#64 <<< 9
def pteAddrMask : Entry := 0x000ffffffffff000#64

def userLimit : ℕ := 0x00007FFFFFFFFFFF

/-- `enum class Flags`: a set of page flags. -/
structure Flags where
  present : Bool
  writable : Bool
  user : Bool
  writeThrough : Bool
  cacheDisable : Bool
  global : Bool
  cowPending : Bool
  noExecute : Bool

def Flags.toEntry (f : Flags) : Entry :=
  (if f.present then 1#64 <<< 0 else 0) ||| (if f.writable then 1#64 <<< 1 else 0) |||
    (if f.user then 1#64 <<< 2 else 0) ||| (if f.writeThrough then 1#64 <<< 3 else 0) |||
    (if f.cacheDisable then 1#64 <<< 4 else 0) ||| (if f.global then 1#64 <<< 8 else 0) |||
    (if f.cowPending then 1#64 <<< 9 else 0) ||| (if f.noExecute then 1#64 <<< 63 else 0)

structure World where
  pmm : Pmm.State
  mem : Mem
  kernelPml4Phys : ℕ

def entry (m : Mem) (table i : ℕ) : Entry := BitVec.ofNat 64 (m.load64 (table + 8 * i))

def setEntry (m : Mem) (table i : ℕ) (e : Entry) : Mem := m.store64 (table + 8 * i) e.toNat

/-- `entry & bit` as a condition. -/
def has (e bit : Entry) : Bool := e &&& bit != 0

/-- `entry & pte_addr_mask` -/
def addrOf (e : Entry) : ℕ := (e &&& pteAddrMask).toNat

def pml4Idx (va : ℕ) : ℕ := (va >>> 39) &&& 0x1FF
def pdptIdx (va : ℕ) : ℕ := (va >>> 30) &&& 0x1FF
def pdIdx (va : ℕ) : ℕ := (va >>> 21) &&& 0x1FF
def ptIdx (va : ℕ) : ℕ := (va >>> 12) &&& 0x1FF

def resolvePml4 (w : World) (pml4 : ℕ) : ℕ := if pml4 ≠ 0 then pml4 else w.kernelPml4Phys

/-- The entry that points to an intermediate table. -/
def tableEntry (phys : ℕ) : Entry := BitVec.ofNat 64 phys ||| ptePresent ||| pteWritable ||| pteUser

def zeroTable (phys : ℕ) (m : Mem) : Mem := forUp (fun i m => setEntry m phys i 0) 512 0 m

def ensureTable (table i : ℕ) (w : World) : Option (ℕ × World) :=
  if !has (entry w.mem table i) ptePresent then
    let (newTablePhys, pmm) := allocPage w.pmm
    if newTablePhys = invalidPhysicalAddress then none
    else
      let mem := setEntry (zeroTable newTablePhys w.mem) table i (tableEntry newTablePhys)
      some (addrOf (entry mem table i), { w with pmm := pmm, mem := mem })
  else some (addrOf (entry w.mem table i), w)

/-- `split_huge`: level 1 splits 1 GiB into 2 MiB entries, level 2 splits 2 MiB into 4 KiB. -/
def splitHuge (table i level : ℕ) (w : World) : Option World :=
  let e := entry w.mem table i
  let baseAligned := (e &&& pteAddrMask) &&& ~~~((1#64 <<< (if level = 1 then 30 else 21)) - 1#64)
  let flags := e &&& (ptePresent ||| pteWritable ||| pteUser ||| 0x18#64 ||| (1#64 <<< 63))
  let subSize := if level = 1 then 1#64 <<< 21 else 1#64 <<< 12
  let (newTablePhys, pmm) := allocPage w.pmm
  if newTablePhys = invalidPhysicalAddress then none
  else
    let mem := forUp (fun j m =>
      let sub := (baseAligned + BitVec.ofNat 64 j * subSize) ||| flags
      setEntry m newTablePhys j (if level = 1 then sub ||| pteHuge else sub)) 512 0 w.mem
    some { w with pmm := pmm, mem := setEntry mem table i (tableEntry newTablePhys) }

/-- A huge entry is split before the walk goes through it. -/
def splitIfHuge (table i level : ℕ) (w : World) : Option World :=
  let e := entry w.mem table i
  if has e ptePresent && has e pteHuge then splitHuge table i level w else some w

def mapPage (virtualAddress physicalAddress : ℕ) (flags : Flags) (pml4Phys : ℕ) (w : World) :
    Option World := do
  let root := resolvePml4 w pml4Phys
  if root = 0 then none
  let (pdpt, w) ← ensureTable root (pml4Idx virtualAddress) w
  let w ← splitIfHuge pdpt (pdptIdx virtualAddress) 1 w
  let (pd, w) ← ensureTable pdpt (pdptIdx virtualAddress) w
  let w ← splitIfHuge pd (pdIdx virtualAddress) 2 w
  let (pt, w) ← ensureTable pd (pdIdx virtualAddress) w
  let pte := (BitVec.ofNat 64 physicalAddress &&& pteAddrMask) ||| flags.toEntry
  some { w with mem := setEntry w.mem pt (ptIdx virtualAddress) pte }

def tableIsEmpty (m : Mem) (table : ℕ) : Bool := (findUp (fun i => has (entry m table i) ptePresent) 512 0).isNone

def cleanupTableLevel (phys level : ℕ) (w : World) : Bool × World :=
  if level = 0 then (false, w)
  else if !tableIsEmpty w.mem phys then (false, w)
  else (true, { w with pmm := freePage phys w.pmm })

/-- The clean-up of one level of `unmap_page`: an empty table is freed and its entry cleared. -/
def cleanupEntry (phys level parent i : ℕ) (w : World) : World :=
  let (empty, w) := cleanupTableLevel phys level w
  if empty then { w with mem := setEntry w.mem parent i 0 } else w

/-- A huge entry is not recognised: the page it maps is taken for a table. -/
def unmapPage (virtualAddress pml4Phys : ℕ) (w : World) : Option World :=
  let root := resolvePml4 w pml4Phys
  if root = 0 then none
  else
    let e4 := entry w.mem root (pml4Idx virtualAddress)
    if !has e4 ptePresent then some w
    else
      let e3 := entry w.mem (addrOf e4) (pdptIdx virtualAddress)
      if !has e3 ptePresent then some w
      else
        let e2 := entry w.mem (addrOf e3) (pdIdx virtualAddress)
        if !has e2 ptePresent then some w
        else
          let e1 := entry w.mem (addrOf e2) (ptIdx virtualAddress)
          if !has e1 ptePresent then some w
          else
            let w := { w with mem := setEntry w.mem (addrOf e2) (ptIdx virtualAddress) 0 }
            let w := cleanupEntry (addrOf e2) 1 (addrOf e3) (pdIdx virtualAddress) w
            let w := cleanupEntry (addrOf e3) 2 (addrOf e4) (pdptIdx virtualAddress) w
            some (cleanupEntry (addrOf e4) 3 root (pml4Idx virtualAddress) w)

def createUserPml4 (w : World) : ℕ × World :=
  if w.kernelPml4Phys = 0 then (0, w)
  else
    let (newPml4Phys, pmm) := allocPage w.pmm
    if newPml4Phys = invalidPhysicalAddress then (0, { w with pmm := pmm })
    else
      let mem := zeroTable newPml4Phys w.mem
      let mem := forUp (fun i m => setEntry m newPml4Phys i (entry m w.kernelPml4Phys i)) 256 256 mem
      (newPml4Phys, { w with pmm := pmm, mem := mem })

/-- The loop body of `clone_table` at depth 0. -/
def cloneLeaf (src dst i : ℕ) (w : World) : World :=
  let e := entry w.mem src i
  if !has e ptePresent then { w with mem := setEntry w.mem dst i 0 }
  else
    let pmm := retainPage (addrOf e) w.pmm
    let mem := if has e pteWritable then
        setEntry w.mem src i ((e &&& ~~~pteWritable) ||| pteCow)
      else w.mem
    { w with pmm := pmm, mem := setEntry mem dst i (entry mem src i) }

/-- The loop body of `clone_table` above depth 0; an error is a failed sub-clone. -/
def cloneNode (cloneSub : ℕ → World → ℕ × World) (src dst i : ℕ) (w : World) :
    Except World World :=
  let e := entry w.mem src i
  if !has e ptePresent then .ok { w with mem := setEntry w.mem dst i 0 }
  else if has e pteHuge then .ok { w with mem := setEntry w.mem dst i e }
  else
    let (subPhys, w) := cloneSub (addrOf e) w
    if subPhys = 0 then .error w
    else .ok { w with mem := setEntry w.mem dst i (tableEntry subPhys) }

/-- `clone_table(src_phys, depth)`: depth 0 is a page table of leaf entries. -/
def cloneTable : ℕ → ℕ → World → ℕ × World
  | 0, src, w =>
    let (dst, pmm) := allocPage w.pmm
    if dst = invalidPhysicalAddress then (0, { w with pmm := pmm })
    else (dst, forUp (cloneLeaf src dst) 512 0 { w with pmm := pmm })
  | depth + 1, src, w =>
    let (dst, pmm) := allocPage w.pmm
    if dst = invalidPhysicalAddress then (0, { w with pmm := pmm })
    else
      match forUpE (cloneNode (cloneTable depth) src dst) 512 0 { w with pmm := pmm } with
      | .ok w => (dst, w)
      | .error w => (0, { w with pmm := freePage dst w.pmm })

/-- `free_table(phys, depth)`; it changes only the page allocator. -/
def freeTable (m : Mem) : ℕ → ℕ → Pmm.State → Pmm.State
  | 0, phys, s =>
    freePage phys (forUp (fun i s =>
      let e := entry m phys i
      if !has e ptePresent then s else freePage (addrOf e) s) 512 0 s)
  | depth + 1, phys, s =>
    freePage phys (forUp (fun i s =>
      let e := entry m phys i
      if !has e ptePresent then s
      else if !has e pteHuge then freeTable m depth (addrOf e) s else s) 512 0 s)

/-- The clean-up of a failed `clone_address_space` after `i` entries. -/
def undoClone (dst i : ℕ) (w : World) : World :=
  let pmm := forUp (fun j s =>
    let e := entry w.mem dst j
    if has e ptePresent then freeTable w.mem 2 (addrOf e) s else s) i 0 w.pmm
  { w with pmm := freePage dst pmm }

def cloneAddressSpace (src : ℕ) (w : World) : ℕ × World :=
  if w.kernelPml4Phys = 0 then (0, w)
  else
    let (dst, pmm) := allocPage w.pmm
    if dst = invalidPhysicalAddress then (0, { w with pmm := pmm })
    else
      let mem := forUp (fun i m => setEntry m dst i (entry m src i)) 256 256 w.mem
      match forUpE (fun i w => (cloneNode (cloneTable 2) src dst i w).mapError fun w => (i, w))
          256 0 { w with pmm := pmm, mem := mem } with
      | .ok w => (dst, w)
      | .error (i, w) => (0, undoClone dst i w)

def copyPage (old new : ℕ) (m : Mem) : Mem :=
  forUp (fun i m => m.store8 (new + i) (m (old + i))) 4096 0 m

/-- `handle_cow_fault` once slot `i` of the page table `pt` is found. -/
def handleCowLeaf (pt i : ℕ) (w : World) : Bool × World :=
  let pte := entry w.mem pt i
  if !has pte ptePresent || !has pte pteCow then (false, w)
  else if pageRefCount (addrOf pte) w.pmm ≤ 1 then
    (true, { w with mem := setEntry w.mem pt i ((pte ||| pteWritable) &&& ~~~pteCow) })
  else
    let (newPagePhys, pmm) := allocPage w.pmm
    if newPagePhys = invalidPhysicalAddress then (false, { w with pmm := pmm })
    else
      let mem := copyPage (addrOf pte) newPagePhys w.mem
      let preserved := pte &&& ~~~(pteAddrMask ||| pteWritable ||| pteCow)
      let mem := setEntry mem pt i
        ((BitVec.ofNat 64 newPagePhys &&& pteAddrMask) ||| preserved ||| pteWritable)
      (true, { w with pmm := freePage (addrOf pte) pmm, mem := mem })

def handleCowFault (faultAddress errorCode pml4Phys : ℕ) (w : World) : Bool × World :=
  if errorCode &&& 0x7 ≠ 0x7 ∨ pml4Phys = 0 then (false, w)
  else
    let e4 := entry w.mem pml4Phys (pml4Idx faultAddress)
    if !has e4 ptePresent then (false, w)
    else
      let e3 := entry w.mem (addrOf e4) (pdptIdx faultAddress)
      if !has e3 ptePresent then (false, w)
      else
        let e2 := entry w.mem (addrOf e3) (pdIdx faultAddress)
        if !has e2 ptePresent then (false, w)
        else if has e2 pteHuge then (false, w)
        else handleCowLeaf (addrOf e2) (ptIdx faultAddress) w

def freeAddressSpace (pml4Phys : ℕ) (w : World) : World :=
  if pml4Phys = 0 then w
  else
    let pmm := forUp (fun i s =>
      let e := entry w.mem pml4Phys i
      if !has e ptePresent then s
      else if !has e pteHuge then freeTable w.mem 2 (addrOf e) s else s) 256 0 w.pmm
    { w with pmm := freePage pml4Phys pmm }

/-! ### The processor's side -/

structure Translation where
  phys : ℕ
  writable : Bool
  user : Bool

def perm (e bit : Entry) (above : Bool) : Bool := above && has e bit

/-- The four-level walk of the processor, with 1 GiB and 2 MiB pages. -/
def walk (m : Mem) (pml4 va : ℕ) : Option Translation :=
  let e4 := entry m pml4 (pml4Idx va)
  if !has e4 ptePresent then none
  else
    let e3 := entry m (addrOf e4) (pdptIdx va)
    let w3 := perm e3 pteWritable (has e4 pteWritable)
    let u3 := perm e3 pteUser (has e4 pteUser)
    if !has e3 ptePresent then none
    else if has e3 pteHuge then some ⟨addrOf e3 / 2 ^ 30 * 2 ^ 30 + va % 2 ^ 30, w3, u3⟩
    else
      let e2 := entry m (addrOf e3) (pdIdx va)
      let w2 := perm e2 pteWritable w3
      let u2 := perm e2 pteUser u3
      if !has e2 ptePresent then none
      else if has e2 pteHuge then some ⟨addrOf e2 / 2 ^ 21 * 2 ^ 21 + va % 2 ^ 21, w2, u2⟩
      else
        let e1 := entry m (addrOf e2) (ptIdx va)
        if !has e1 ptePresent then none
        else some ⟨addrOf e1 + va % 2 ^ 12, perm e1 pteWritable w2, perm e1 pteUser u2⟩

def readByte (m : Mem) (pml4 va : ℕ) : Option (BitVec 8) := (walk m pml4 va).map fun t => m t.phys

/-- A store that the page tables permit to user mode. -/
def tryWrite (pml4 va : ℕ) (b : BitVec 8) (w : World) : Option World :=
  match walk w.mem pml4 va with
  | none => none
  | some t => if t.writable && t.user then some { w with mem := w.mem.store8 t.phys b } else none

/-- A user-mode byte write: a store to a present page that is not permitted faults with
error code 7 and is retried once `handle_cow_fault` returns true. -/
def userWrite (pml4 va : ℕ) (b : BitVec 8) (w : World) : Option World :=
  match tryWrite pml4 va b w with
  | some w => some w
  | none =>
    if (walk w.mem pml4 va).isSome then
      match handleCowFault va 7 pml4 w with
      | (true, w) => tryWrite pml4 va b w
      | (false, _) => none
    else none

end Tori.Vmm
