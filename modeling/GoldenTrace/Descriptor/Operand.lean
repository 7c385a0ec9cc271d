import GoldenTrace.Register

/-!
# Operands

An operand is a register, a register pair or an immediate, either taken as it
is or used as an address. An 8-bit operand that is used as an address points
into the high page of memory.

Diagnostics show operands in a nested form of their own, with every part named.
-/

namespace GoldenTrace

inductive Operand.Kind where
  | register8 (r : Reg8)
  | register16 (r : Reg16)
  | imm8 (v : UInt8)
  | imm16 (v : UInt16)
  | signedImm8 (v : Int8)
  deriving DecidableEq

/-- An operand of an instruction. `pointer` tells whether it is an address. -/
structure Operand where
  kind : Operand.Kind
  pointer : Bool
  deriving DecidableEq

/-- The adjustment that accompanies a load. -/
inductive PostLoad where
  | none
  | increment
  | decrement
  /-- A displacement that is added to the source. -/
  | addSigned (d : Int8)
  deriving DecidableEq

namespace Operand

def reg8 (r : Reg8) : Operand :=
  ⟨.register8 r, false⟩

def reg16 (r : Reg16) : Operand :=
  ⟨.register16 r, false⟩

/-- How many bytes of the instruction stream the operand takes. -/
def immediateLength (o : Operand) : Nat :=
  match o.kind with
  | .register8 _ | .register16 _ => 0
  | .imm8 _ | .signedImm8 _ => 1
  | .imm16 _ => 2

def showBool (b : Bool) : String :=
  if b then "true" else "false"

def Kind.describe : Kind → String
  | register8 r => "Register8(" ++ r.name ++ ")"
  | register16 r => "Register16(" ++ r.name ++ ")"
  | imm8 v => "Imm8(" ++ String.ofList (Text.decimal v.toNat) ++ ")"
  | imm16 v => "Imm16(" ++ String.ofList (Text.decimal v.toNat) ++ ")"
  | signedImm8 v => "SignedImm8(" ++ String.ofList (Text.integer v.toInt) ++ ")"

def describe (o : Operand) : String :=
  "Operand \x7b kind: " ++ o.kind.describe ++ ", pointer: " ++ showBool o.pointer ++ " \x7d"

/-- A kind and its use as a pair in a diagnostic. -/
def describePair (o : Operand) : String :=
  "(" ++ o.kind.describe ++ ", " ++ showBool o.pointer ++ ")"

/-- An operand that may be absent in a diagnostic. -/
def describeOption (f : Operand → String) : Option Operand → String
  | Option.none => "None"
  | some o => "Some(" ++ f o ++ ")"

end Operand

def PostLoad.describe : PostLoad → String
  | none => "None"
  | increment => "Increment"
  | decrement => "Decrement"
  | addSigned d => "AddSigned(" ++ String.ofList (Text.integer d.toInt) ++ ")"

end GoldenTrace
