import Tori.Lib.Loop
import Tori.Lib.Ring
import Tori.Spec.Vfs

/-! The model of `log/log.cpp`. Entries wait in the boot buffer or in the ring of their CPU; a flush hands them to
`format_entry`, which follows the pointers in an entry only then. The functions that move entries do not look at them,
so they are stated for any type of entry; each returns the entries it handed to `format_entry`, in order. -/

namespace Tori.Log

open Vfs (Str)

abbrev maxCpus : ℕ := 128
abbrev ringEntries : ℕ := 256
abbrev flushBatch : ℕ := 4
abbrev bootEntries : ℕ := 64

scoped instance neZeroRingEntries : NeZero ringEntries := ⟨by decide⟩
scoped instance neZeroBootEntries : NeZero bootEntries := ⟨by decide⟩

/-! ### Entries and their text -/

inductive Level
  | trace | debug | info | warn | error | panic
  deriving DecidableEq, Inhabited

def Level.toNat : Level → ℕ
  | .trace => 0 | .debug => 1 | .info => 2 | .warn => 3 | .error => 4 | .panic => 5

/-- The union of `LogEntry`, by `type`; pointers are addresses. -/
inductive Payload
  | message (msg : ℕ)
  | value (label value : ℕ)
  | textValue (label value : ℕ)
  deriving DecidableEq, Inhabited

structure LogEntry where
  timestamp : ℕ
  level : Level
  category : ℕ
  file : ℕ
  line : ℤ
  payload : Payload
  deriving DecidableEq, Inhabited

def bytes (s : String) : Str := s.toList.map fun c => UInt8.ofNat c.toNat

def levelName : Level → Str
  | .trace => bytes "TRACE" | .debug => bytes "DEBUG" | .info => bytes "INFO"
  | .warn => bytes "WARN" | .error => bytes "ERROR" | .panic => bytes "PANIC"

def levelColor : Level → ℕ
  | .trace => 0x00888888 | .debug => 0x00aaaaaa | .info => 0x00ffffff
  | .warn => 0x00ffff00 | .error => 0x00ff5555 | .panic => 0x00ff00ff

/-- The string at `p`; `none` if no byte of the address space ends it. -/
def cString (mem : ℕ → UInt8) (p : ℕ) : Option Str :=
  (Loop.findUp (fun i => mem ((p + i) % 2 ^ 64) == 0) (2 ^ 64) 0).map fun n =>
    (List.range n).map fun i => mem ((p + i) % 2 ^ 64)

/-- The text a pointer stands for, with a text of its own for the null pointer. -/
def textOr (null : String) (mem : ℕ → UInt8) (p : ℕ) : Option Str :=
  if p = 0 then some (bytes null) else cString mem p

def decDigits : ℕ → ℕ → Str → Str
  | 0, _, acc => acc
  | k + 1, v, acc => if v = 0 then acc else decDigits k (v / 10) (UInt8.ofNat (48 + v % 10) :: acc)

def writeDec (value : ℕ) : Str := if value = 0 then bytes "0" else decDigits 20 value []

def writeHex (value : ℕ) : Str :=
  bytes "0x" ++ (List.range 16).map fun index =>
    let d := (value >>> ((15 - index) * 4)) &&& 0xf
    UInt8.ofNat (if d < 10 then 48 + d else 87 + d)

/-- The text of the value pointer of a `TextValue` entry. -/
def valueText (mem : ℕ → UInt8) (e : LogEntry) : Option Str :=
  match e.payload with
  | .textValue _ value => textOr "(null)" mem value
  | _ => none

structure Output where
  serial : Str
  framebuffer : Option (Str × ℕ)

/-- Every level goes to the serial line, `Info` and above to the framebuffer as well. -/
def formatEntry (mem : ℕ → UInt8) (e : LogEntry) : Option Output := do
  let category ← textOr "kernel" mem e.category
  let body ← match e.payload with
    | .message msg => textOr "(null)" mem msg
    | .value label value => do
      let label ← textOr "value" mem label
      pure (label ++ bytes " = " ++ writeHex value ++ bytes " (" ++ writeDec value ++ bytes ")")
    | .textValue label _ => do
      let label ← textOr "value" mem label
      let value ← valueText mem e
      pure (label ++ bytes " = " ++ value)
  let text := bytes "[" ++ levelName e.level ++ bytes "]" ++ bytes "[" ++ category ++ bytes "] " ++ body ++ bytes "\n"
  pure ⟨text, if e.level.toNat ≥ Level.info.toNat then some (text, levelColor e.level) else none⟩

/-- The entry that `write_text_value` pushes; `line` is cut to 16 bits. -/
def textValueEntry (timestamp : ℕ) (level : Level) (category file : ℕ) (line : ℤ) (label value : ℕ) : LogEntry :=
  ⟨timestamp, level, category, file, line.bmod (2 ^ 16), .textValue label value⟩

def messageEntry (timestamp : ℕ) (level : Level) (category file : ℕ) (line : ℤ) (message : ℕ) : LogEntry :=
  ⟨timestamp, level, category, file, line.bmod (2 ^ 16), .message message⟩

def valueEntry (timestamp : ℕ) (level : Level) (category file : ℕ) (line : ℤ) (label value : ℕ) : LogEntry :=
  ⟨timestamp, level, category, file, line.bmod (2 ^ 16), .value label value⟩

/-! ### The buffers -/

structure State (E : Type) where
  bootBuffer : Ring bootEntries E
  perCpuBuffers : ℕ → Ring ringEntries E
  cpuInitialized : ℕ → Bool
  anyCpuInitialized : Bool

variable {E F : Type}

/-- The zeroed buffers. -/
def State.zero [Inhabited E] : State E :=
  ⟨⟨fun _ => default, 0, 0⟩, fun _ => ⟨fun _ => default, 0, 0⟩, fun _ => false, false⟩

/-- Whether the CPU with this LAPIC id has its ring. -/
def State.usesPerCpu (s : State E) (lapicId : ℕ) : Bool :=
  s.anyCpuInitialized && decide (lapicId < maxCpus) && s.cpuInitialized lapicId

def State.setRing (s : State E) (lapicId : ℕ) (r : Ring ringEntries E) : State E :=
  { s with perCpuBuffers := Function.update s.perCpuBuffers lapicId r }

/-- The loops over the boot buffer end with it empty: 64 rounds are enough. -/
def drainBoot (s : State E) : List E × State E :=
  let (es, b) := Ring.drain bootEntries s.bootBuffer
  (es, { s with bootBuffer := b })

/-- The two flushes; they differ in how many entries of the ring they take. `free` is the answer of `try_lock`. -/
def flushUpTo (limit lapicId : ℕ) (free : Bool) (s : State E) : List E × State E :=
  if !free then ([], s)
  else
    let (boot, s) := drainBoot s
    if s.usesPerCpu lapicId then
      let (es, r) := Ring.drain limit (s.perCpuBuffers lapicId)
      (boot ++ es, s.setRing lapicId r)
    else (boot, s)

def flush (lapicId : ℕ) (free : Bool) (s : State E) : List E × State E := flushUpTo flushBatch lapicId free s

/-- The loop over the ring ends with it empty: 256 rounds are enough. -/
def flushAll (lapicId : ℕ) (free : Bool) (s : State E) : List E × State E := flushUpTo ringEntries lapicId free s

/-- `next` is computed before the flush, the test and the store come after it. -/
def pushEntry (lapicId : ℕ) (free : Bool) (entry : E) (s : State E) : List E × State E :=
  if s.usesPerCpu lapicId then
    let buf := s.perCpuBuffers lapicId
    let next := Ring.next buf.writeIdx
    let used := if buf.writeIdx.val ≥ buf.readIdx.val then buf.writeIdx.val - buf.readIdx.val
      else ringEntries - (buf.readIdx.val - buf.writeIdx.val)
    let (out, s) := if used > ringEntries * 3 / 4 then flush lapicId free s else ([], s)
    let buf := s.perCpuBuffers lapicId
    if next ≠ buf.readIdx then
      (out, s.setRing lapicId
        { buf with entries := Function.update buf.entries buf.writeIdx entry, writeIdx := next })
    else (out, s)
  else
    let buf := s.bootBuffer
    let next := Ring.next buf.writeIdx
    if next ≠ buf.readIdx then
      ([], { s with bootBuffer :=
        { buf with entries := Function.update buf.entries buf.writeIdx entry, writeIdx := next } })
    else ([], s)

def initPerCpu (lapicId : ℕ) (s : State E) : List E × State E :=
  if lapicId ≥ maxCpus then ([], s)
  else
    let (es, s) := drainBoot s
    (es, { s with cpuInitialized := Function.update s.cpuInitialized lapicId true, anyCpuInitialized := true })

/-! ### Calls on one CPU -/

inductive Call (E : Type)
  | push (entry : E)
  | flush
  | flushAll

/-- A call that finds the lock free. -/
def call (lapicId : ℕ) : Call E → State E → List E × State E
  | .push entry => pushEntry lapicId true entry
  | .flush => flush lapicId true
  | .flushAll => flushAll lapicId true

/-- A sequence of calls, and all the entries they handed to `format_entry`. -/
def calls (lapicId : ℕ) : List (Call E) → State E → List E × State E
  | [], s => ([], s)
  | c :: cs, s =>
    let (out, s) := call lapicId c s
    let (rest, s) := calls lapicId cs s
    (out ++ rest, s)

def pushed : List (Call E) → List E
  | [] => []
  | .push entry :: cs => entry :: pushed cs
  | _ :: cs => pushed cs

/-- The entries that a CPU has yet to print. -/
def State.pending (s : State E) (lapicId : ℕ) : List E :=
  s.bootBuffer.contents ++ (s.perCpuBuffers lapicId).contents

end Tori.Log
