import Tori.Lib.Loop

/-! The model of `uefi_pc/acpi.cpp`: two walks over the tables that the firmware lists. Memory is a function of the
virtual address, pointers are 64-bit addresses and 0 is null. -/

namespace Tori.Acpi

open Loop

structure Signature where
  a : UInt8
  b : UInt8
  c : UInt8
  d : UInt8
  deriving DecidableEq

def apic : Signature := ⟨65, 80, 73, 67⟩
def facp : Signature := ⟨70, 65, 67, 80⟩
def hpet : Signature := ⟨72, 80, 69, 84⟩

def rsdpSignature : List UInt8 := [82, 83, 68, 32, 80, 84, 82, 32]

/-! ### Fields -/

def byte (mem : ℕ → UInt8) (p i : ℕ) : UInt8 := mem ((p + i) % 2 ^ 64)

/-- The little-endian word of `n` bytes at `p`. -/
def load (mem : ℕ → UInt8) (p : ℕ) : ℕ → ℕ
  | 0 => 0
  | n + 1 => load mem p n + 256 ^ n * (byte mem p n).toNat

def signatureAt (mem : ℕ → UInt8) (p : ℕ) : Signature := ⟨byte mem p 0, byte mem p 1, byte mem p 2, byte mem p 3⟩

/-- `SDTHeader::length`. -/
def tableLength (mem : ℕ → UInt8) (p : ℕ) : ℕ := load mem (p + 4) 4

def revision (mem : ℕ → UInt8) (rsdp : ℕ) : ℕ := (byte mem rsdp 15).toNat
def rsdtAddress (mem : ℕ → UInt8) (rsdp : ℕ) : ℕ := load mem (rsdp + 16) 4
def rsdpLength (mem : ℕ → UInt8) (rsdp : ℕ) : ℕ := load mem (rsdp + 20) 4
def xsdtAddress (mem : ℕ → UInt8) (rsdp : ℕ) : ℕ := load mem (rsdp + 24) 8

def physToVirt (physical hhdmOffset : ℕ) : ℕ := (physical + hhdmOffset) % 2 ^ 64

/-! ### Checks -/

def rsdpSigValid (mem : ℕ → UInt8) (rsdp : ℕ) : Bool :=
  (List.range 8).all fun i => byte mem rsdp i == rsdpSignature.getD i 0

def sumBytes (mem : ℕ → UInt8) (data length : ℕ) : UInt8 := forUp (fun i sum => sum + byte mem data i) length 0 0

def validateRsdpChecksum (mem : ℕ → UInt8) (rsdp : ℕ) : Bool :=
  if !rsdpSigValid mem rsdp then false
  else if sumBytes mem rsdp 20 ≠ 0 then false
  else if revision mem rsdp ≥ 2 then sumBytes mem rsdp (rsdpLength mem rsdp) = 0
  else true

def validateSdtChecksum (mem : ℕ → UInt8) (header : ℕ) : Bool := sumBytes mem header (tableLength mem header) = 0

/-! ### Roots -/

/-- The XSDT or the RSDT: where it is, its signature, and the bytes of an entry. -/
structure Root where
  table : ℕ
  signature : Signature
  width : ℕ

def xsdt (mem : ℕ → UInt8) (hhdmOffset rsdp : ℕ) : Root := ⟨physToVirt (xsdtAddress mem rsdp) hhdmOffset, ⟨88, 83, 68, 84⟩, 8⟩

def rsdt (mem : ℕ → UInt8) (hhdmOffset rsdp : ℕ) : Root := ⟨physToVirt (rsdtAddress mem rsdp) hhdmOffset, ⟨82, 83, 68, 84⟩, 4⟩

def Root.valid (mem : ℕ → UInt8) (r : Root) : Bool :=
  signatureAt mem r.table = r.signature && validateSdtChecksum mem r.table

/-- `(length - sizeof(SDTHeader)) / width` in 64 bits, kept in 32. -/
def Root.entryCount (mem : ℕ → UInt8) (r : Root) : ℕ :=
  (tableLength mem r.table + 2 ^ 64 - 36) % 2 ^ 64 / r.width % 2 ^ 32

def Root.entry (mem : ℕ → UInt8) (r : Root) (i : ℕ) : ℕ := load mem (r.table + 36 + i * r.width) r.width

/-- The XSDT is tried if the RSDP is of version 2 and names one. -/
def useXsdt (mem : ℕ → UInt8) (hhdmOffset rsdp : ℕ) : Bool :=
  xsdtAddress mem rsdp ≠ 0 && revision mem rsdp ≥ 2 && (xsdt mem hhdmOffset rsdp).valid mem

def useRsdt (mem : ℕ → UInt8) (hhdmOffset rsdp : ℕ) : Bool :=
  rsdtAddress mem rsdp ≠ 0 && (rsdt mem hhdmOffset rsdp).valid mem

/-! ### `find_table` -/

/-- The loop over the entries of a root. -/
def Root.find (mem : ℕ → UInt8) (hhdmOffset : ℕ) (signature : Signature) (r : Root) : Option ℕ :=
  (findUp (fun i => r.entry mem i ≠ 0 && signatureAt mem (physToVirt (r.entry mem i) hhdmOffset) = signature)
    (r.entryCount mem) 0).map fun i => physToVirt (r.entry mem i) hhdmOffset

def findTable (mem : ℕ → UInt8) (hhdmOffset rsdp : ℕ) (signature : Signature) : Option ℕ :=
  if rsdp = 0 || !rsdpSigValid mem rsdp then none
  else
    match (if useXsdt mem hhdmOffset rsdp then (xsdt mem hhdmOffset rsdp).find mem hhdmOffset signature else none) with
    | some table => some table
    | none =>
      if useRsdt mem hhdmOffset rsdp then (rsdt mem hhdmOffset rsdp).find mem hhdmOffset signature else none

/-! ### `enumerate` -/

structure Info where
  rsdpFound : Bool
  rsdpChecksumValid : Bool
  xsdtFound : Bool
  xsdtEntryCount : ℕ
  madtFound : Bool
  fadtFound : Bool
  hpetFound : Bool

def noteTable (mem : ℕ → UInt8) (hhdmOffset physical : ℕ) (info : Info) : Info :=
  if physical = 0 then info
  else
    let table := physToVirt physical hhdmOffset
    if !validateSdtChecksum mem table then info
    else if signatureAt mem table = apic then { info with madtFound := true }
    else if signatureAt mem table = facp then { info with fadtFound := true }
    else if signatureAt mem table = hpet then { info with hpetFound := true }
    else info

def Root.note (mem : ℕ → UInt8) (hhdmOffset : ℕ) (r : Root) (info : Info) : Info :=
  forUp (fun i => noteTable mem hhdmOffset (r.entry mem i)) (r.entryCount mem) 0 info

def enumerate (mem : ℕ → UInt8) (hhdmOffset rsdp : ℕ) : Info :=
  let info : Info := ⟨false, false, false, 0, false, false, false⟩
  if rsdp = 0 then info
  else
    let info := { info with rsdpFound := true }
    if !rsdpSigValid mem rsdp then info
    else if !validateRsdpChecksum mem rsdp then info
    else
      let info := { info with rsdpChecksumValid := true }
      if useXsdt mem hhdmOffset rsdp then
        let r := xsdt mem hhdmOffset rsdp
        r.note mem hhdmOffset { info with xsdtFound := true, xsdtEntryCount := r.entryCount mem }
      else if useRsdt mem hhdmOffset rsdp then (rsdt mem hhdmOffset rsdp).note mem hhdmOffset info
      else info

/-- The tables that `enumerate` reports. -/
inductive Reported
  | madt
  | fadt
  | hpet

def Reported.signature : Reported → Signature
  | .madt => apic
  | .fadt => facp
  | .hpet => Acpi.hpet

def Info.found (info : Info) : Reported → Bool
  | .madt => info.madtFound
  | .fadt => info.fadtFound
  | .hpet => info.hpetFound

end Tori.Acpi
