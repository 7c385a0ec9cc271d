import GoldenTrace.Descriptor.Operand

/-!
# Operations

What a descriptor says about an instruction: one of seven categories, the
operation within it, and the operands. Operands may be absent here, so that a
descriptor without one can be told from one whose text makes no sense at all.
-/

namespace GoldenTrace

inductive ArithOp where
  | add
  | adc
  | sub
  | sbc
  | and
  | or
  | xor
  | cp
  | inc
  | dec
  | daa
  | cpl
  | scf
  | ccf
  deriving DecidableEq

/-- Single-bit operations of the second opcode page. -/
inductive BitOp where
  | bit
  | res
  | set
  deriving DecidableEq

inductive RotateOp where
  | rlc
  | rrc
  | rl
  | rr
  | sla
  | sra
  | swap
  | srl
  deriving DecidableEq

inductive JumpKind where
  | jp
  | jr
  | call
  | ret
  | reti
  | rst
  deriving DecidableEq

inductive Condition where
  | notZero
  | zero
  | notCarry
  | carry
  deriving DecidableEq

/-- Operations on the processor itself. -/
inductive ControlOp where
  | nop
  | halt
  | stop
  | di
  | ei
  deriving DecidableEq

instance : Named ArithOp where
  all := [.add, .adc, .sub, .sbc, .and, .or, .xor, .cp, .inc, .dec, .daa, .cpl, .scf, .ccf]
  name
    | .add => "add"
    | .adc => "adc"
    | .sub => "sub"
    | .sbc => "sbc"
    | .and => "and"
    | .or => "or"
    | .xor => "xor"
    | .cp => "cp"
    | .inc => "inc"
    | .dec => "dec"
    | .daa => "daa"
    | .cpl => "cpl"
    | .scf => "scf"
    | .ccf => "ccf"

instance : Named BitOp where
  all := [.bit, .res, .set]
  name
    | .bit => "bit"
    | .res => "res"
    | .set => "set"

instance : Named RotateOp where
  all := [.rlc, .rrc, .rl, .rr, .sla, .sra, .swap, .srl]
  name
    | .rlc => "rlc"
    | .rrc => "rrc"
    | .rl => "rl"
    | .rr => "rr"
    | .sla => "sla"
    | .sra => "sra"
    | .swap => "swap"
    | .srl => "srl"

instance : Named JumpKind where
  all := [.jp, .jr, .call, .ret, .reti, .rst]
  name
    | .jp => "jp"
    | .jr => "jr"
    | .call => "call"
    | .ret => "ret"
    | .reti => "reti"
    | .rst => "rst"

instance : Named Condition where
  all := [.notZero, .zero, .notCarry, .carry]
  name
    | .notZero => "nz"
    | .zero => "z"
    | .notCarry => "nc"
    | .carry => "c"

instance : Named ControlOp where
  all := [.nop, .halt, .stop, .di, .ei]
  name
    | .nop => "nop"
    | .halt => "halt"
    | .stop => "stop"
    | .di => "di"
    | .ei => "ei"

namespace Condition

def flag : Condition → Flag
  | notZero | zero => .z
  | notCarry | carry => .c

/-- The state of the flag under which the condition holds. -/
def wanted : Condition → Bool
  | zero | carry => true
  | notZero | notCarry => false

def holds (c : Condition) (flags : Flags) : Bool :=
  flags.get c.flag == c.wanted

end Condition

/-- The first payload byte of an operation's block on the second opcode page. -/
def BitOp.blockBase : BitOp → Nat
  | bit => 0x40
  | res => 0x80
  | set => 0xC0

/-- An operation with the operands a descriptor gives it. -/
inductive Operation where
  | arithmetic8 (op : ArithOp) (lhs rhs : Option Operand)
  | arithmetic16 (op : ArithOp) (lhs rhs : Option Operand)
  | bitwise (op : BitOp) (bit : Option UInt8) (operand : Option Operand)
  | load (dst src : Option Operand) (postLoad : PostLoad)
  | jump (kind : JumpKind) (condition : Option Condition) (target : Option Operand)
  | rotate (op : RotateOp) (operand : Option Operand)
  | control (op : ControlOp)
  deriving DecidableEq

inductive Category where
  | arithmetic8
  | arithmetic16
  | bitwise
  | load
  | jump
  | rotate
  | control
  deriving DecidableEq

instance : Named Category where
  all := [.arithmetic8, .arithmetic16, .bitwise, .load, .jump, .rotate, .control]
  name
    | .arithmetic8 => "arithmetic8"
    | .arithmetic16 => "arithmetic16"
    | .bitwise => "bitwise"
    | .load => "load"
    | .jump => "jump"
    | .rotate => "rotate"
    | .control => "control"

def Operation.category : Operation → Category
  | arithmetic8 .. => .arithmetic8
  | arithmetic16 .. => .arithmetic16
  | bitwise .. => .bitwise
  | load .. => .load
  | jump .. => .jump
  | rotate .. => .rotate
  | control .. => .control

end GoldenTrace
