import Tori.Lib.Ring
import Tori.Spec.Vfs

/-! The model of `ps2.cpp` and `terminal.cpp` from a scancode to a line. The interrupt handler and `read_line` run at the
same time, one access to the shared ring a step; the handler may run on the CPU of the reader or on another one. The
echo to the framebuffer is left out. -/

namespace Tori.Keyboard

open Vfs (Str)

/-! ### Scancodes -/

def s1Normal : List UInt8 :=
  [0, 27, 49, 50, 51, 52, 53, 54, 55, 56, 57, 48, 45, 61, 8, 9,
   113, 119, 101, 114, 116, 121, 117, 105, 111, 112, 91, 93, 10, 0, 97, 115,
   100, 102, 103, 104, 106, 107, 108, 59, 39, 96, 0, 92, 122, 120, 99, 118,
   98, 110, 109, 44, 46, 47, 0, 42, 0, 32, 0, 0, 0, 0, 0, 0]

def s1Shift : List UInt8 :=
  [0, 27, 33, 64, 35, 36, 37, 94, 38, 42, 40, 41, 95, 43, 8, 9,
   81, 87, 69, 82, 84, 89, 85, 73, 79, 80, 123, 125, 10, 0, 65, 83,
   68, 70, 71, 72, 74, 75, 76, 58, 34, 126, 0, 124, 90, 88, 67, 86,
   66, 78, 77, 60, 62, 63, 0, 42, 0, 32, 0, 0, 0, 0, 0, 0]

structure Modifiers where
  shiftPressed : Bool
  extended : Bool
  deriving DecidableEq

/-- `handle_irq` up to the character it pushes, if any. The tables have 128 entries; those not listed are 0. -/
def decode (sc : UInt8) (m : Modifiers) : Option UInt8 × Modifiers :=
  if sc = 0xE0 then (none, { m with extended := true })
  else
    let extended := m.extended
    let m := { m with extended := false }
    let make := sc &&& 0x80 = 0
    let code := sc &&& 0x7F
    if code = 0x2A ∨ code = 0x36 then (none, { m with shiftPressed := make })
    else if ¬make then (none, m)
    else if extended then (none, m)
    else if code ≥ 128 then (none, m)
    else
      let ascii := (if m.shiftPressed then s1Shift else s1Normal).getD code.toNat 0
      if ascii = 0 then (none, m) else (some ascii, m)

/-- The characters of a sequence of scancodes. -/
def decodeAll : List UInt8 → Modifiers → Str × Modifiers
  | [], m => ([], m)
  | sc :: scs, m =>
    let (c, m) := decode sc m
    let (cs, m) := decodeAll scs m
    (c.toList ++ cs, m)

def decoded (scs : List UInt8) : Str := (decodeAll scs ⟨false, false⟩).1

/-! ### The terminal -/

abbrev lineBufSize : ℕ := 256

structure Terminal where
  line : ℕ → UInt8
  pos : ℕ
  lineReady : Bool

def putChar (c : UInt8) (t : Terminal) : Terminal :=
  if t.lineReady then t
  else if c = 8 then (if t.pos > 0 then { t with pos := t.pos - 1 } else t)
  else if c = 10 then { t with line := Function.update t.line t.pos 10, lineReady := true }
  else if c < 0x20 ∨ c > 0x7E then t
  else if t.pos < lineBufSize - 1 then { t with line := Function.update t.line t.pos c, pos := t.pos + 1 }
  else t

/-- The bytes that `read_line` copies to a buffer of `max` bytes, before the NUL. -/
def Terminal.copied (t : Terminal) (max : ℕ) : Str :=
  (List.range (if t.pos < max then t.pos else max - 1)).map t.line

/-! ### The handler and the reader -/

abbrev bufSize : ℕ := 256

scoped instance neZeroBufSize : NeZero bufSize := ⟨by decide⟩

/-- Where `buf_push` is: before the test `next == g_tail`, before the store of the character, before the store of
`g_head`. -/
inductive Irq
  | idle
  | test (c : UInt8)
  | store (c : UInt8)
  | advance (c : UInt8)
  deriving DecidableEq

/-- Where `read_line` is: before the loads of `has_char`, of the test and of the character in `read_char`, before the
store of `g_tail`, before `put_char`. -/
inductive Reader
  | idle
  | hasChar (max : ℕ)
  | test (max : ℕ)
  | load (max : ℕ)
  | advance (max : ℕ) (c : UInt8)
  | put (max : ℕ) (c : UInt8)
  deriving DecidableEq

/-- `scancodes` are those handled so far, `lines` the lines that `read_line` has returned. -/
structure Machine where
  modifiers : Modifiers
  irq : Irq
  ring : Ring bufSize UInt8
  reader : Reader
  terminal : Terminal
  scancodes : List UInt8
  lines : List Str

inductive Act
  /-- The keyboard raises an interrupt. -/
  | interrupt (sc : UInt8)
  /-- The next access of `buf_push`. -/
  | handler
  /-- `read_line` is called, with a buffer of `max` bytes. -/
  | readLine (max : ℕ)
  /-- The next access of `read_line`. -/
  | reader

def interrupt (sc : UInt8) (m : Machine) : Machine :=
  let (c, modifiers) := decode sc m.modifiers
  { m with
    modifiers := modifiers
    irq := match c with
      | none => .idle
      | some c => .test c
    scancodes := m.scancodes ++ [sc] }

def bufPush (m : Machine) : Option Machine :=
  match m.irq with
  | .idle => none
  | .test c => some { m with irq := if Ring.next m.ring.writeIdx = m.ring.readIdx then .idle else .store c }
  | .store c => some { m with ring := m.ring.store c, irq := .advance c }
  | .advance _ => some { m with ring := m.ring.advance, irq := .idle }

def readStep (m : Machine) : Option Machine :=
  match m.reader with
  | .idle => none
  | .hasChar max => some { m with reader := if m.ring.writeIdx ≠ m.ring.readIdx then .test max else .idle }
  | .test max => some { m with reader := if m.ring.writeIdx = m.ring.readIdx then .put max 0 else .load max }
  | .load max => some { m with reader := .advance max (m.ring.entries m.ring.readIdx) }
  | .advance max c => some { m with ring := m.ring.pop, reader := .put max c }
  | .put max c =>
    let t := putChar c m.terminal
    if t.lineReady then
      some { m with
        terminal := { t with pos := 0, lineReady := false }, lines := m.lines ++ [t.copied max], reader := .idle }
    else some { m with terminal := t, reader := .hasChar max }

def step : Act → Machine → Option Machine
  | .interrupt sc, m => if m.irq = .idle then some (interrupt sc m) else none
  | .handler, m => bufPush m
  | .readLine max, m => if m.reader = .idle then some { m with reader := .hasChar max } else none
  | .reader, m => readStep m

/-- After `terminal::init`, before the first key. -/
def start : Machine :=
  ⟨⟨false, false⟩, .idle, ⟨fun _ => 0, 0, 0⟩, .idle, ⟨fun _ => 0, 0, false⟩, [], []⟩

def Irq.testing : Irq → Bool
  | .test _ => true
  | _ => false

/-- The ring has room whenever a character is pushed, and the buffers of `read_line` hold any line. -/
def Roomy (m : Machine) : Act → Prop
  | .handler => m.irq.testing = true → Ring.next m.ring.writeIdx ≠ m.ring.readIdx
  | .readLine max => 256 ≤ max
  | _ => True

inductive Run (ok : Machine → Act → Prop) : Machine → Prop
  | start : Run ok Keyboard.start
  | step {m m' : Machine} {a : Act} (hrun : Run ok m) (hok : ok m a) (hstep : step a m = some m') : Run ok m'

/-! ### The reference -/

/-- One character typed, after the lines that are complete and the one that is not. -/
def edit (x : List Str × Str) (c : UInt8) : List Str × Str :=
  if c = 10 then (x.1 ++ [x.2], [])
  else if c = 8 then (x.1, x.2.dropLast)
  else if 0x20 ≤ c ∧ c ≤ 0x7E ∧ x.2.length < 255 then (x.1, x.2 ++ [c])
  else x

/-- The lines of a stream of characters, and the unfinished line. -/
def reference (cs : Str) : List Str × Str := cs.foldl edit ([], [])

end Tori.Keyboard
