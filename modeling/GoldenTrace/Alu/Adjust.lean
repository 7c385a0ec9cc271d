import GoldenTrace.Alu.Basic

/-!
# Decimal adjustment, rotations and bit tests

The operations on one byte. Decimal adjustment turns the binary sum or
difference of two packed decimal numbers into a packed decimal number, guided
by the flags of the operation before it. Rotations and shifts send the bit that
leaves the byte to the carry.
-/

namespace GoldenTrace.Alu

/-- The correction after an addition: six for each nibble that left the decimal
digits or carried. -/
def sumCorrection (a : UInt8) (f : Flags) : UInt8 :=
  (if f.c || a.toNat > 0x99 then 0x60 else 0) ||| (if f.h || a.toNat % 16 > 9 then 0x06 else 0)

/-- The correction after a subtraction: six for each nibble that borrowed. -/
def differenceCorrection (f : Flags) : UInt8 :=
  (if f.c then 0x60 else 0) ||| (if f.h then 0x06 else 0)

/-- Decimal adjustment of `a` after an operation that left the flags `f`. -/
def daa (a : UInt8) (f : Flags) : UInt8 × FlagUpdate :=
  let correction := if f.n then differenceCorrection f else sumCorrection a f
  let result := if f.n then a - correction else a + correction
  (result, ⟨some (result == 0), none, some false, some (correction.toNat ≥ 0x60)⟩)

/-- A truth value as the lowest bit. -/
def lowBit (b : Bool) : UInt8 :=
  if b then 0x01 else 0

/-- A truth value as the highest bit. -/
def highBit (b : Bool) : UInt8 :=
  if b then 0x80 else 0

def odd (v : UInt8) : Bool :=
  v &&& 0x01 != 0

/-- Whether the highest bit is set. -/
def negative (v : UInt8) : Bool :=
  v &&& 0x80 != 0

/-- The byte and the carry a rotation or shift leaves. -/
def shifted (op : RotateOp) (v : UInt8) (carry : Bool) : UInt8 × Bool :=
  match op with
  | .rlc => (v <<< 1 ||| lowBit (negative v), negative v)
  | .rrc => (v >>> 1 ||| highBit (odd v), odd v)
  | .rl => (v <<< 1 ||| lowBit carry, negative v)
  | .rr => (v >>> 1 ||| highBit carry, odd v)
  | .sla => (v <<< 1, negative v)
  | .sra => (v >>> 1 ||| highBit (negative v), odd v)
  | .swap => (v <<< 4 ||| v >>> 4, false)
  | .srl => (v >>> 1, odd v)

def rotate (op : RotateOp) (v : UInt8) (carry : Bool) : UInt8 × FlagUpdate :=
  let (result, carryOut) := shifted op v carry
  (result, .all (result == 0) false false carryOut)

def bitMask (bit : UInt8) : UInt8 :=
  1 <<< bit

/-- The flags that report bit `bit` of a byte. -/
def bitTest (v bit : UInt8) : FlagUpdate :=
  ⟨some (v &&& bitMask bit == 0), some false, some true, none⟩

end GoldenTrace.Alu
