import GoldenTrace.Named

/-!
# Registers and flags

The processor has eight 8-bit registers, which also form four 16-bit pairs, and
a 16-bit stack pointer. The program counter is not among them: it is a latch
that traces write as a target of its own.

Register `F` holds four flags in its upper half. Its lower four bits are always
zero, so its contents are four truth values rather than a byte.
-/

namespace GoldenTrace

inductive Reg8 where
  | a
  | f
  | b
  | c
  | d
  | e
  | h
  | l
  deriving DecidableEq

inductive Reg16 where
  | af
  | bc
  | de
  | hl
  | sp
  deriving DecidableEq

/-- The flags: zero, subtraction, half carry and carry. -/
inductive Flag where
  | z
  | n
  | h
  | c
  deriving DecidableEq

namespace Reg8

def name : Reg8 → String
  | a => "A"
  | f => "F"
  | b => "B"
  | c => "C"
  | d => "D"
  | e => "E"
  | h => "H"
  | l => "L"

instance : Named Reg8 where
  all := [a, f, b, c, d, e, h, l]
  name := name

end Reg8

namespace Reg16

def name : Reg16 → String
  | af => "AF"
  | bc => "BC"
  | de => "DE"
  | hl => "HL"
  | sp => "SP"

instance : Named Reg16 where
  all := [af, bc, de, hl, sp]
  name := name

/-- The high and the low half of a pair. The stack pointer has none. -/
def halves? : Reg16 → Option (Reg8 × Reg8)
  | af => some (.a, .f)
  | bc => some (.b, .c)
  | de => some (.d, .e)
  | hl => some (.h, .l)
  | sp => none

end Reg16

namespace Flag

def name : Flag → String
  | z => "Z"
  | n => "N"
  | h => "H"
  | c => "C"

/-- The flags from the highest bit down, which is the order they are written in. -/
def order : List Flag :=
  [z, n, h, c]

instance : Named Flag where
  all := order
  name := name

/-- The bit of register `F` that holds the flag. -/
def mask : Flag → UInt8
  | z => 0x80
  | n => 0x40
  | h => 0x20
  | c => 0x10

end Flag

/-- The contents of register `F`. -/
structure Flags where
  z : Bool
  n : Bool
  h : Bool
  c : Bool
  deriving DecidableEq

namespace Flags

/-- The upper half of a byte. -/
def ofByte (b : UInt8) : Flags where
  z := b &&& 0x80 != 0
  n := b &&& 0x40 != 0
  h := b &&& 0x20 != 0
  c := b &&& 0x10 != 0

def get (flags : Flags) : Flag → Bool
  | .z => flags.z
  | .n => flags.n
  | .h => flags.h
  | .c => flags.c

/-- The byte with exactly the bits of the set flags. -/
def toByte (flags : Flags) : UInt8 :=
  (if flags.z then 0x80 else 0) ||| (if flags.n then 0x40 else 0) |||
    (if flags.h then 0x20 else 0) ||| (if flags.c then 0x10 else 0)

end Flags

/-- Why a text names nothing of the kind asked for. -/
inductive NameError where
  | register8 (text : String)
  | register16 (text : String)
  | flag (text : String)
  | preset (text : String)
  deriving DecidableEq

def NameError.message : NameError → String
  | register8 s => "unknown 8-bit register '" ++ s ++ "'"
  | register16 s => "unknown 16-bit register '" ++ s ++ "'"
  | flag s => "unknown flag '" ++ s ++ "'"
  | preset s => "unknown preset '" ++ s ++ "'"

/-- Finds an 8-bit register by its name in either case. -/
def Reg8.parse (s : String) : Except NameError Reg8 :=
  match Named.findAnyCase? s with
  | some r => .ok r
  | none => .error (.register8 s)

/-- Finds a 16-bit register by its name in either case. -/
def Reg16.parse (s : String) : Except NameError Reg16 :=
  match Named.findAnyCase? s with
  | some r => .ok r
  | none => .error (.register16 s)

/-- Finds a flag by its name in either case. -/
def Flag.parse (s : String) : Except NameError Flag :=
  match Named.findAnyCase? s with
  | some f => .ok f
  | none => .error (.flag s)

end GoldenTrace
