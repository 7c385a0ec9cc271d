import GoldenTrace.Descriptor.Encoding
import GoldenTrace.Instruction.Basic

/-!
# Refusals

A descriptor without a trace is either unsupported, when its operands make no
instruction that is known, or malformed, when it contradicts itself. A batch
goes on after the first kind and stops at the second.
-/

namespace GoldenTrace

/-- Which side of a branch a trace follows. -/
inductive Outcome where
  | taken
  | notTaken
  deriving DecidableEq

instance : Named Outcome where
  all := [.taken, .notTaken]
  name
    | .taken => "taken"
    | .notTaken => "not_taken"

/-- Operands that make no known instruction. -/
inductive Gap where
  /-- An accumulator operation on another destination. -/
  | aluInto (op : AluOp) (lhs : Operand)
  | aluOperand (op : AluOp) (rhs : Operand)
  | stepOperand (op : ArithOp) (operand : Operand)
  | wideOperands (op : ArithOp) (lhs : Operand) (rhs : Option Operand)
  | bitwiseOperand (op : BitOp) (operand : Operand)
  | rotateOperand (op : RotateOp) (operand : Operand)
  /-- A rotation that the first opcode page does not have. -/
  | noAccumulatorForm (op : RotateOp)
  /-- A rotation on the first opcode page of something else. -/
  | accumulatorOnly (op : RotateOp) (operand : Operand)
  | load (dst src : Operand) (postLoad : PostLoad)
  | transfer (kind : JumpKind) (target : Option Operand)
  | conditional (kind : JumpKind)
  | conditionalJumpHl
  deriving DecidableEq

/-- Parts that a category cannot do without. -/
inductive Part where
  | operand
  | secondOperand
  | bitNumber
  | destination
  | source
  deriving DecidableEq

/-- Contradictions within a descriptor. -/
inductive Defect where
  | encoding (e : EncodingError)
  | missing (part : Part)
  /-- The immediate operand is not what the stream holds. -/
  | immediates (expected bytes : List UInt8)
  /-- An operation of the second page without a byte after the page byte. -/
  | noPayload
  | outsideBlock (op : BitOp) (payload : UInt8)
  | bitNumber (selected : Nat) (declared : UInt8)
  | vector (kind : Operand.Kind) (vector : UInt8)
  | durationTooShort (declared : UInt8)
  | duration (declared : Nat) (outcome : Option Outcome) (spanned : Nat)
  deriving DecidableEq

/-- Why a descriptor has no trace. -/
inductive Refusal where
  | unsupported (gap : Gap)
  | malformed (defect : Defect)
  deriving DecidableEq

def Part.name : Part → String
  | operand => "operand"
  | secondOperand => "second operand"
  | bitNumber => "bit number"
  | destination => "destination"
  | source => "source"

def showNat (n : Nat) : String :=
  String.ofList (Text.decimal n)

def showByte (b : UInt8) : String :=
  Text.hexLiteral 2 b.toNat

def showBytes (bs : List UInt8) : String :=
  "[" ++ ", ".intercalate (bs.map fun b => String.ofList (Text.hex 2 b.toNat)) ++ "]"

def Gap.message : Gap → String
  | aluInto op lhs => Named.label op ++ " into " ++ lhs.describe
  | aluOperand op rhs => Named.label op ++ " with operand " ++ rhs.describe
  | stepOperand op operand => Named.label op ++ " of " ++ operand.describe
  | wideOperands op lhs rhs =>
    "16-bit " ++ Named.label op ++ " of " ++ lhs.describe ++ ", " ++
      Operand.describeOption Operand.describe rhs
  | bitwiseOperand op operand => Named.label op ++ " on " ++ operand.describe
  | rotateOperand op operand => Named.label op ++ " on " ++ operand.describe
  | noAccumulatorForm op => Named.label op ++ " has no accumulator form"
  | accumulatorOnly op operand => "unprefixed " ++ Named.label op ++ " of " ++ operand.describe
  | load dst src postLoad =>
    "load " ++ dst.describe ++ " <- " ++ src.describe ++ " (" ++ postLoad.describe ++ ")"
  | transfer kind target =>
    Named.label kind ++ " to " ++ Operand.describeOption Operand.describePair target
  | conditional kind => "conditional " ++ Named.label kind
  | conditionalJumpHl => "conditional JP (HL)"

def EncodingError.message : EncodingError → String
  | length n => "machine code does not fit its byte length " ++ showNat n.toNat
  | lead b => "leading byte " ++ showByte b ++ " is not an opcode"

/-- A trace in a message, by its outcome. -/
def showOutcome : Option Outcome → String
  | none => "single"
  | some o => Named.name o

def Defect.message : Defect → String
  | encoding e => e.message
  | missing part => "missing " ++ part.name
  | immediates expected bytes =>
    "immediate bytes " ++ showBytes expected ++ " do not match the instruction stream " ++
      showBytes bytes
  | noPayload => "CB-page instruction without payload byte"
  | outsideBlock op payload =>
    "payload " ++ showByte payload ++ " is outside the " ++ Named.label op ++ " block"
  | bitNumber selected declared =>
    "opcode selects bit " ++ showNat selected ++ " but the descriptor names bit " ++
      showNat declared.toNat
  | vector kind v =>
    "RST target " ++ kind.describe ++ " disagrees with vector " ++ showByte v
  | durationTooShort declared => "duration " ++ showNat declared.toNat ++ " is too short"
  | duration declared outcome spanned =>
    "declared " ++ showNat declared ++ " machine cycles but the " ++ showOutcome outcome ++
      " trace spans " ++ showNat spanned

end GoldenTrace
