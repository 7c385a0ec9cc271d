import GoldenTrace.Register

/-!
# Writes

A write is one observable effect: a target of the machine receives a value. A
target takes either a byte or a word, and a write always carries a value of the
width its target takes.
-/

namespace GoldenTrace

inductive Width where
  | byte
  | word
  deriving DecidableEq

def Width.name : Width → String
  | byte => "byte"
  | word => "word"

inductive Target where
  | register8 (r : Reg8)
  | register16 (r : Reg16)
  | memory (address : UInt16)
  | flag (f : Flag)
  /-- The interrupt master enable. -/
  | ime
  | addressBus
  | dataBus
  /-- The program counter. -/
  | pc
  /-- The instruction register. -/
  | ir
  deriving DecidableEq

inductive Value where
  | byte (v : UInt8)
  | word (v : UInt16)
  deriving DecidableEq

/-- One observable effect. -/
inductive Write where
  | register8 (r : Reg8) (v : UInt8)
  | register16 (r : Reg16) (v : UInt16)
  | memory (address : UInt16) (v : UInt8)
  | flag (f : Flag) (v : UInt8)
  | ime (v : UInt8)
  | addressBus (v : UInt16)
  | dataBus (v : UInt8)
  | pc (v : UInt16)
  | ir (v : UInt8)
  deriving DecidableEq

namespace Target

def width : Target → Width
  | register16 _ | addressBus | pc => .word
  | register8 _ | memory _ | flag _ | ime | dataBus | ir => .byte

end Target

namespace Value

def width : Value → Width
  | byte _ => .byte
  | word _ => .word

def toNat : Value → Nat
  | byte v => v.toNat
  | word v => v.toNat

end Value

namespace Write

/-- A truth value as it is written to a flag or to the interrupt enable. -/
def bit (b : Bool) : UInt8 :=
  if b then 1 else 0

def setFlag (f : Flag) (b : Bool) : Write :=
  flag f (bit b)

def setIme (b : Bool) : Write :=
  ime (bit b)

def target : Write → Target
  | register8 r _ => .register8 r
  | register16 r _ => .register16 r
  | memory a _ => .memory a
  | flag f _ => .flag f
  | ime _ => .ime
  | addressBus _ => .addressBus
  | dataBus _ => .dataBus
  | pc _ => .pc
  | ir _ => .ir

def value : Write → Value
  | register8 _ v => .byte v
  | register16 _ v => .word v
  | memory _ v => .byte v
  | flag _ v => .byte v
  | ime v => .byte v
  | addressBus v => .word v
  | dataBus v => .byte v
  | pc v => .word v
  | ir v => .byte v

/-- The write of a value to a target, if the target takes values of its width. -/
def of? : Target → Value → Option Write
  | .register8 r, .byte v => some (register8 r v)
  | .register16 r, .word v => some (register16 r v)
  | .memory a, .byte v => some (memory a v)
  | .flag f, .byte v => some (flag f v)
  | .ime, .byte v => some (ime v)
  | .addressBus, .word v => some (addressBus v)
  | .dataBus, .byte v => some (dataBus v)
  | .pc, .word v => some (pc v)
  | .ir, .byte v => some (ir v)
  | _, _ => none

theorem width_value (w : Write) : w.value.width = w.target.width := by
  cases w <;> rfl

@[simp] theorem of?_target_value (w : Write) : of? w.target w.value = some w := by
  cases w <;> rfl

end Write

end GoldenTrace
