import GoldenTrace.Alu.Adjust
import GoldenTrace.Preset

/-!
# Instructions

An instruction is a descriptor's operation with its operands sorted out: every
value of these types is an instruction that a trace can be made for.
-/

namespace GoldenTrace

/-- A byte that can be read and written back: a register, or the memory a pair
points at. -/
inductive Place where
  | register (r : Reg8)
  | pointer (rr : Reg16)
  deriving DecidableEq

/-- The second operand of an accumulator operation. -/
inductive Source where
  | place (p : Place)
  | immediate (v : UInt8)
  deriving DecidableEq

/-- A step of one, up or down. -/
inductive Step where
  | up
  | down
  deriving DecidableEq

/-- Operations on the accumulator and the flags alone. -/
inductive Adjustment where
  | daa
  | cpl
  | scf
  | ccf
  deriving DecidableEq

/-- What an arithmetic operation does, seen as an 8-bit one. -/
inductive ArithOp.Role where
  | alu (op : AluOp)
  | step (s : Step)
  | adjust (a : Adjustment)
  deriving DecidableEq

def ArithOp.role : ArithOp → ArithOp.Role
  | add => .alu .add
  | adc => .alu .adc
  | sub => .alu .sub
  | sbc => .alu .sbc
  | and => .alu .and
  | or => .alu .or
  | xor => .alu .xor
  | cp => .alu .cp
  | inc => .step .up
  | dec => .step .down
  | daa => .adjust .daa
  | cpl => .adjust .cpl
  | scf => .adjust .scf
  | ccf => .adjust .ccf

/-- Loads, by destination and source. -/
inductive Load where
  | register (dst src : Reg8)
  /-- From the memory a pair points at; the pair may then step. -/
  | fromPointer (dst : Reg8) (ptr : Reg16) (step : Option Step)
  /-- To the memory a pair points at; the pair may then step. -/
  | toPointer (ptr : Reg16) (src : Reg8) (step : Option Step)
  | pairImmediate (dst : Reg16) (v : UInt16)
  | immediate (dst : Reg8) (v : UInt8)
  | pointerImmediate (ptr : Reg16) (v : UInt8)
  | storeStackPointer (address : UInt16)
  | pop (dst : Reg16)
  | push (src : Reg16)
  /-- To the high page, at an immediate offset. -/
  | highStore (offset : UInt8) (src : Reg8)
  /-- From the high page, at an immediate offset. -/
  | highLoad (dst : Reg8) (offset : UInt8)
  | absoluteStore (address : UInt16) (src : Reg8)
  | absoluteLoad (dst : Reg8) (address : UInt16)
  /-- From the high page, at the offset a register holds. -/
  | indexedLoad (dst index : Reg8)
  /-- To the high page, at the offset a register holds. -/
  | indexedStore (index src : Reg8)
  | stackFromHl
  /-- The stack pointer and a displacement into HL. -/
  | hlFromStack (d : Int8)
  deriving DecidableEq

inductive Transfer where
  | jump (condition : Option Condition) (address : UInt16)
  | jumpHl
  | relative (condition : Option Condition) (d : Int8)
  | call (condition : Option Condition) (address : UInt16)
  | ret (condition : Option Condition)
  | reti
  | restart (vector : UInt16)
  deriving DecidableEq

/-- Everything a trace can be made for. -/
inductive Instruction where
  | alu (op : AluOp) (source : Source)
  | step8 (s : Step) (place : Place)
  | adjust (a : Adjustment)
  | step16 (s : Step) (rr : Reg16)
  | addHl (rr : Reg16)
  | addSp (d : Int8)
  | bitwise (op : BitOp) (bit : UInt8) (place : Place)
  | load (l : Load)
  | transfer (t : Transfer)
  /-- A rotation of the accumulator on the first opcode page. -/
  | rotateA (op : RotateOp)
  | rotate (op : RotateOp) (place : Place)
  | control (op : ControlOp)
  deriving DecidableEq

/-- The bytes of an immediate word in the order of the stream. -/
def littleEndian (w : UInt16) : List UInt8 :=
  [lowByte w, highByte w]

namespace Load

def immediates : Load → List UInt8
  | pairImmediate _ v => littleEndian v
  | immediate _ v => [v]
  | pointerImmediate _ v => [v]
  | storeStackPointer a => littleEndian a
  | highStore o _ => [o]
  | highLoad _ o => [o]
  | absoluteStore a _ => littleEndian a
  | absoluteLoad _ a => littleEndian a
  | hlFromStack d => [d.toUInt8]
  | _ => []

/-- Loads that use the stack start where it is clear of the registers'
pointees. -/
def preset : Load → PresetName
  | storeStackPointer _ | pop _ | push _ | stackFromHl | hlFromStack _ => .highstack
  | _ => .default

end Load

namespace Transfer

def condition? : Transfer → Option Condition
  | jump c _ | relative c _ | call c _ | ret c => c
  | jumpHl | reti | restart _ => none

def immediates : Transfer → List UInt8
  | jump _ a => littleEndian a
  | relative _ d => [d.toUInt8]
  | call _ a => littleEndian a
  | jumpHl | ret _ | reti | restart _ => []

/-- How many cycles fewer the transfer takes when its condition fails. -/
def cyclesSaved : Transfer → Nat
  | jump .. | relative .. => 1
  | call .. | ret _ => 3
  | jumpHl | reti | restart _ => 0

end Transfer

namespace Instruction

/-- The immediate bytes an instruction reads. An instruction that reads any
reads all the bytes after its opcode. -/
def immediates : Instruction → List UInt8
  | alu _ (.immediate v) => [v]
  | addSp d => [d.toUInt8]
  | load l => l.immediates
  | transfer t => t.immediates
  | _ => []

/-- How many bytes of the stream the instruction reads. -/
def streamLength : Instruction → Nat
  | bitwise .. | rotate .. => 2
  | i => 1 + i.immediates.length

def condition? : Instruction → Option Condition
  | transfer t => t.condition?
  | _ => none

/-- How many cycles fewer a branch takes when its condition fails. -/
def cyclesSaved : Instruction → Nat
  | transfer t => t.cyclesSaved
  | _ => 0

/-- The state that the trace of an unconditional instruction starts from. -/
def preset : Instruction → PresetName
  | addSp _ | transfer _ => .highstack
  | load l => l.preset
  | _ => .default

end Instruction

end GoldenTrace
