import GoldenTrace.Descriptor.Operation
import GoldenTrace.Command.Write

/-!
# The arithmetic unit

Two-operand operations are computed modulo a modulus, 256 for bytes and 65536
for words. The modulus bounds the result and the carry; the half carry always
comes out of the low nibble.

Addition and subtraction with carry take a carry of one: traces that use them
start from a state whose carry is set.
-/

namespace GoldenTrace

/-- Two-operand operations. -/
inductive AluOp where
  | add
  | adc
  | sub
  | sbc
  | and
  | or
  | xor
  | cp
  deriving DecidableEq

instance : Named AluOp where
  all := [.add, .adc, .sub, .sbc, .and, .or, .xor, .cp]
  name
    | .add => "add"
    | .adc => "adc"
    | .sub => "sub"
    | .sbc => "sbc"
    | .and => "and"
    | .or => "or"
    | .xor => "xor"
    | .cp => "cp"

/-- What an operation does to the flags. A flag without a state is left alone. -/
structure FlagUpdate where
  z : Option Bool
  n : Option Bool
  h : Option Bool
  c : Option Bool
  deriving DecidableEq

namespace FlagUpdate

def unaffected : FlagUpdate :=
  ⟨none, none, none, none⟩

def all (z n h c : Bool) : FlagUpdate :=
  ⟨some z, some n, some h, some c⟩

def get (u : FlagUpdate) : Flag → Option Bool
  | .z => u.z
  | .n => u.n
  | .h => u.h
  | .c => u.c

def withoutCarry (u : FlagUpdate) : FlagUpdate :=
  { u with c := none }

def withoutZero (u : FlagUpdate) : FlagUpdate :=
  { u with z := none }

def withZero (b : Bool) (u : FlagUpdate) : FlagUpdate :=
  { u with z := some b }

/-- The writes that carry out the update, from the highest flag down. -/
def writes (u : FlagUpdate) : List Write :=
  Flag.order.filterMap fun f => (u.get f).map (Write.setFlag f)

end FlagUpdate

namespace Alu

def byteModulus : Nat := 0x100

def wordModulus : Nat := 0x10000

def carryIn : AluOp → Nat
  | .adc | .sbc => 1
  | _ => 0

/-- The result of an operation. A comparison gives its first operand. -/
def value (op : AluOp) (a b modulus : Nat) : Nat :=
  match op with
  | .add | .adc => (a + b + carryIn op) % modulus
  | .sub | .sbc => (((a : Int) - b - carryIn op) % modulus).toNat
  | .and => (a &&& b) % modulus
  | .or => (a ||| b) % modulus
  | .xor => (a ^^^ b) % modulus
  | .cp => a % modulus

def nibble (n : Nat) : Nat :=
  n % 16

/-- The flags after an addition with the given carry. -/
def addFlags (a b cin modulus : Nat) : FlagUpdate :=
  .all ((a + b + cin) % modulus == 0) false (nibble a + nibble b + cin ≥ 16)
    (a + b + cin ≥ modulus)

/-- The flags after a subtraction with the given borrow. -/
def subFlags (a b cin modulus : Nat) : FlagUpdate :=
  .all (((a : Int) - b - cin) % modulus == 0) true (nibble a < nibble b + cin) (a < b + cin)

def flags (op : AluOp) (a b modulus : Nat) : FlagUpdate :=
  match op with
  | .add | .adc => addFlags a b (carryIn op) modulus
  | .sub | .sbc | .cp => subFlags a b (carryIn op) modulus
  | .and => .all (a &&& b == 0) false true false
  | .or => .all (a ||| b == 0) false false false
  | .xor => .all (a ^^^ b == 0) false false false

def byteValue (op : AluOp) (a b : UInt8) : UInt8 :=
  UInt8.ofNat (value op a.toNat b.toNat byteModulus)

def byteFlags (op : AluOp) (a b : UInt8) : FlagUpdate :=
  flags op a.toNat b.toNat byteModulus

end Alu

end GoldenTrace
