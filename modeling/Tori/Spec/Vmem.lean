import Tori.Lib.Word

/-! The kernel's virtual ranges: `init_vmem_ranges` and `alloc_vmem_range` of `vmm.cpp`. -/

namespace Tori.Vmem

open Word

/-- The link address of `__kernel_virtual_start`. -/
def kernelImageStart : ℕ := 0xFFFFFFFF80000000

def pageSize : ℕ := 4096

structure State where
  vmemCurrent : ℕ
  vmemEnd : ℕ

def initVmemRanges (hhdmTop : ℕ) : State :=
  let hhdmTop := alignUp hhdmTop pageSize
  if hhdmTop ≥ kernelImageStart then ⟨0, 0⟩ else ⟨hhdmTop, kernelImageStart⟩

def allocVmemRange (size : ℕ) (s : State) : ℕ × State :=
  if size = 0 then (0, s)
  else if s.vmemCurrent ≥ s.vmemEnd then (0, s)
  else
    let size := alignUp size pageSize
    if u64 (s.vmemCurrent + size) > s.vmemEnd ∨ u64 (s.vmemCurrent + size) < s.vmemCurrent then (0, s)
    else (s.vmemCurrent, { s with vmemCurrent := u64 (s.vmemCurrent + size) })

/-- A call, the state it found and its result. -/
structure Call where
  pre : State
  size : ℕ
  result : ℕ

def calls : List ℕ → State → List Call
  | [], _ => []
  | size :: sizes, s => ⟨s, size, (allocVmemRange size s).1⟩ :: calls sizes (allocVmemRange size s).2

/-- The first page boundary from `x` on. -/
def pageAbove (x : ℕ) : ℕ := (x + (pageSize - 1)) / pageSize * pageSize

/-- The range of a successful call exists. -/
structure Call.Inside (hhdmTop : ℕ) (c : Call) : Prop where
  aligned : c.result % pageSize = 0
  fits : c.result + c.size < 2 ^ 64
  above : pageAbove hhdmTop ≤ c.result
  below : c.result + c.size ≤ kernelImageStart

def Call.Apart (c d : Call) : Prop := c.result + c.size ≤ d.result ∨ d.result + d.size ≤ c.result

structure Ranges (hhdmTop : ℕ) (cs : List Call) : Prop where
  inside : ∀ c ∈ cs, c.result ≠ 0 → c.Inside hhdmTop
  apart : cs.Pairwise fun c d => c.result ≠ 0 → d.result ≠ 0 → c.Apart d

/-- Neither the size nor the top wraps when it is rounded up, or the call finds nothing to give. -/
def Call.Rounds (hhdmTop : ℕ) (c : Call) : Prop :=
  c.size = 0 ∨ c.pre.vmemCurrent = 0 ∨ c.pre.vmemEnd ≤ c.pre.vmemCurrent ∨
    c.size ≤ 2 ^ 64 - pageSize ∧ (hhdmTop ≤ 2 ^ 64 - pageSize ∨ c.pre.vmemEnd < c.pre.vmemCurrent + c.size)

end Tori.Vmem
