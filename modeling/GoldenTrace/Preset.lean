import GoldenTrace.Register
import GoldenTrace.Json.Printer

/-!
# Presets

A preset is a machine state that traces start from. Memory is the same in all
of them: every byte holds the low byte of its own address.
-/

namespace GoldenTrace

inductive PresetName where
  /-- General purpose, with every flag set. -/
  | default
  /-- The stack is far from everything the registers point at. -/
  | highstack
  /-- Zero and carry are clear. -/
  | nznc
  deriving DecidableEq

instance : Named PresetName where
  all := [.default, .highstack, .nznc]
  name
    | .default => "default"
    | .highstack => "highstack"
    | .nznc => "nznc"

namespace PresetName

def name (p : PresetName) : String :=
  Named.name p

def parse (s : String) : Except NameError PresetName :=
  match Named.find? s with
  | some p => .ok p
  | none => .error (.preset s)

end PresetName

structure Registers where
  a : UInt8
  f : Flags
  b : UInt8
  c : UInt8
  d : UInt8
  e : UInt8
  h : UInt8
  l : UInt8
  sp : UInt16
  pc : UInt16
  deriving DecidableEq

def word (high low : UInt8) : UInt16 :=
  UInt16.ofNat (high.toNat * 256 + low.toNat)

def highByte (w : UInt16) : UInt8 :=
  UInt8.ofNat (w.toNat / 256)

def lowByte (w : UInt16) : UInt8 :=
  UInt8.ofNat w.toNat

/-- The word at an address of a memory, low byte first. The address after the last is the
first. -/
def wordAt (mem : UInt16 → UInt8) (address : UInt16) : UInt16 :=
  word (mem (address + 1)) (mem address)

namespace Registers

def get8 (regs : Registers) : Reg8 → UInt8
  | .a => regs.a
  | .f => regs.f.toByte
  | .b => regs.b
  | .c => regs.c
  | .d => regs.d
  | .e => regs.e
  | .h => regs.h
  | .l => regs.l

/-- A pair is the word of its halves. -/
def get16 (regs : Registers) (r : Reg16) : UInt16 :=
  match r.halves? with
  | some (high, low) => word (regs.get8 high) (regs.get8 low)
  | none => regs.sp

end Registers

/-- How memory is filled. -/
inductive MemoryFill where
  | addressLowByte
  deriving DecidableEq

/-- A machine state that traces start from. -/
structure Preset where
  name : PresetName
  regs : Registers
  ime : Bool
  memoryFill : MemoryFill
  deriving DecidableEq

namespace Preset

def memorySize : Nat := 0x10000

def read8 (p : Preset) (address : UInt16) : UInt8 :=
  match p.memoryFill with
  | .addressLowByte => lowByte address

def read16 (p : Preset) (address : UInt16) : UInt16 :=
  wordAt p.read8 address

/-- The state that all presets share but for flags and stack pointer. -/
def withStack (name : PresetName) (f : UInt8) (sp : UInt16) : Preset where
  name := name
  regs :=
    { a := 0x0A, f := .ofByte f, b := 0x0B, c := 0x0C, d := 0x0D, e := 0x0E, h := 0x01,
      l := 0x02, sp := sp, pc := 0x0000 }
  ime := true
  memoryFill := .addressLowByte

end Preset

def PresetName.preset : PresetName → Preset
  | default => .withStack .default 0xF0 0x00FF
  | highstack => .withStack .highstack 0xF0 0xBBFF
  | nznc => .withStack .nznc 0x60 0xBBFF

namespace Preset

def all : List Preset :=
  Named.all.map PresetName.preset

end Preset

def Registers.toJson (regs : Registers) : Json :=
  .obj [("a", .nat regs.a.toNat), ("f", .nat regs.f.toByte.toNat), ("b", .nat regs.b.toNat),
    ("c", .nat regs.c.toNat), ("d", .nat regs.d.toNat), ("e", .nat regs.e.toNat),
    ("h", .nat regs.h.toNat), ("l", .nat regs.l.toNat), ("sp", .nat regs.sp.toNat),
    ("pc", .nat regs.pc.toNat)]

instance : Named MemoryFill where
  all := [.addressLowByte]
  name
    | .addressLowByte => "address_low_byte"

namespace Preset

def toJson (p : Preset) : Json :=
  .obj [("name", Named.toJson p.name), ("regs", p.regs.toJson), ("ime", .bool p.ime),
    ("memory_fill", Named.toJson p.memoryFill)]

def listing : String :=
  (Json.arr (all.map toJson)).render .indented

end Preset

end GoldenTrace
