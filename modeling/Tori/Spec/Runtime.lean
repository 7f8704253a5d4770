import Tori.Lib.ByteMem

/-! Support routines of the kernel: `memmove` and the symbol table of the stack trace. An address is a natural
number, so a range is one that does not wrap. -/

namespace Tori.Runtime

open Loop

/-- `index` counts the second loop down to 1 and the byte copied is `index - 1`. -/
def memmove (destination source count : ℕ) (m : Mem) : ℕ × Mem :=
  let copy := fun index (m : Mem) => m.store8 (destination + index) (m (source + index))
  (destination,
    if destination < source then forUp copy count 0 m
    else if destination > source then forDown copy count m
    else m)

/-! ### `stacktrace.cpp` -/

structure SymEntry where
  addr : ℕ
  name : String

/-- `__kernel_symtab_start` and `__kernel_symtab_count`, as generated from `nm -n`. An entry has 16 bytes, so the
indices of the search do not overflow. -/
structure Symtab where
  start : ℕ → SymEntry
  count : ℕ
  sorted : ∀ i j, i ≤ j → j < count → (start i).addr ≤ (start j).addr

def lookupLoop (t : Symtab) (addr : ℕ) (lo hi : ℤ) : Option (String × ℕ) :=
  if lo ≤ hi then
    let mid := lo + (hi - lo) / 2
    let sa := (t.start mid.toNat).addr
    if addr < sa then lookupLoop t addr lo (mid - 1)
    else if mid = t.count - 1 ∨ addr < (t.start (mid + 1).toNat).addr then
      some ((t.start mid.toNat).name, addr - sa)
    else lookupLoop t addr (mid + 1) hi
  else none
termination_by (hi + 1 - lo).toNat

/-- The name and `off`; `none` is the null pointer. -/
def lookup (t : Symtab) (addr : ℕ) : Option (String × ℕ) :=
  if t.count = 0 then none else lookupLoop t addr 0 (t.count - 1)

end Tori.Runtime
