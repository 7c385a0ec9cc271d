import GoldenTrace.Proofs.Alu.Adder
import GoldenTrace.Proofs.Machine

/-!
# Sums of words, byte by byte

The arithmetic unit adds bytes, so the sum of two words takes two passes: one over the low
bytes, and one over the high bytes with the carry between them. To add a displacement is to add
the word that has its sign in every bit of the high byte.
-/

namespace GoldenTrace

/-! ## Two passes -/

namespace Alu

def lowSum (x y : UInt16) : UInt8 :=
  byteValue .add (lowByte x) (lowByte y)

/-- The carry between the passes. -/
def lowCarry (x y : UInt16) : Bool :=
  (byteFlags .add (lowByte x) (lowByte y)).c.getD false

def highSum (x y : UInt16) : UInt8 :=
  highByte x + highByte y + lowBit (lowCarry x y)

/-- Two passes over the bytes of `x` and `y` do what the addition of the words does. The carry
of the sum comes out of the high pass, and its half carry out of the low one. -/
structure TwoPass (x y : UInt16) : Prop where
  value : (highSum x y).toNat * 256 + (lowSum x y).toNat =
    value .add x.toNat y.toNat wordModulus
  carry : (flags .add x.toNat y.toNat wordModulus).c =
    some (decide (256 ≤ (highByte x).toNat + (highByte y).toNat + (lowCarry x y).toNat))
  half : (flags .add x.toNat y.toNat wordModulus).h =
    (byteFlags .add (lowByte x) (lowByte y)).h

theorem toNat_lowBit (b : Bool) : (lowBit b).toNat = b.toNat := by
  cases b <;> rfl

theorem toNat_lowSum (x y : UInt16) :
    (lowSum x y).toNat = (x.toNat % 256 + y.toNat % 256) % 256 := by
  rw [lowSum, toNat_byteValue, toNat_lowByte, toNat_lowByte]
  rfl

theorem lowCarry_eq (x y : UInt16) :
    lowCarry x y = decide (256 ≤ x.toNat % 256 + y.toNat % 256) := by
  rw [lowCarry, byteFlags, toNat_lowByte, toNat_lowByte]
  rfl

theorem toNat_lowCarry (x y : UInt16) :
    (lowCarry x y).toNat = (x.toNat % 256 + y.toNat % 256) / 256 := by
  rw [lowCarry_eq]
  by_cases h : 256 ≤ x.toNat % 256 + y.toNat % 256
  · rw [decide_eq_true h, Bool.toNat_true]
    omega
  · rw [decide_eq_false h, Bool.toNat_false]
    omega

theorem toNat_highSum (x y : UInt16) :
    (highSum x y).toNat =
      (x.toNat / 256 + y.toNat / 256 + (x.toNat % 256 + y.toNat % 256) / 256) % 256 := by
  rw [highSum, UInt8.toNat_add, UInt8.toNat_add, toNat_highByte, toNat_highByte, toNat_lowBit,
    toNat_lowCarry]
  omega

theorem lowByte_add (x y : UInt16) : lowByte (x + y) = lowSum x y := by
  apply UInt8.toNat_inj.mp
  rw [toNat_lowByte, toNat_lowSum, UInt16.toNat_add]
  omega

theorem highByte_add (x y : UInt16) : highByte (x + y) = highSum x y := by
  apply UInt8.toNat_inj.mp
  rw [toNat_highByte, toNat_highSum, UInt16.toNat_add]
  omega

theorem twoPass (x y : UInt16) : TwoPass x y := by
  refine ⟨?value, ?carry, ?half⟩
  case value =>
    rw [← toNat_word, ← highByte_add, ← lowByte_add, word_highByte_lowByte, UInt16.toNat_add]
    rfl
  case carry =>
    show some (decide (65536 ≤ x.toNat + y.toNat + 0)) = _
    rw [Option.some.injEq, decide_eq_decide, toNat_highByte, toNat_highByte, toNat_lowCarry]
    omega
  case half =>
    show some (decide (16 ≤ x.toNat % 16 + y.toNat % 16 + 0)) =
      some (decide (16 ≤ (lowByte x).toNat % 16 + (lowByte y).toNat % 16 + 0))
    rw [Option.some.injEq, decide_eq_decide, toNat_lowByte, toNat_lowByte]
    omega

end Alu

/-! ## Displacements -/

theorem toNat_displace (w : UInt16) (d : Int8) :
    ((displace w d).toNat : Int) = (w.toNat + d.toInt) % 65536 := by
  rw [displace, UInt16.ofInt, UInt16.toNat_ofNat']
  omega

/-- The byte of a displacement is its two's complement. -/
theorem toNat_toUInt8 (d : Int8) :
    (d.toUInt8.toNat : Int) = if d.toInt < 0 then d.toInt + 256 else d.toInt := by
  have hint : d.toInt = d.toUInt8.toBitVec.toInt := rfl
  have hnat : d.toUInt8.toBitVec.toNat = d.toUInt8.toNat := rfl
  have hlt := d.toUInt8.toNat_lt
  rw [BitVec.toInt_eq_toNat_cond, hnat] at hint
  split at hint <;> split <;> omega

/-- The word of a displacement has the sign in its high byte. -/
theorem displace_eq_add (w : UInt16) (d : Int8) :
    displace w d = w + word (if d < 0 then 0xFF else 0) d.toUInt8 := by
  have hw := toNat_displace w d
  have hd := toNat_toUInt8 d
  have hneg : d < 0 ↔ d.toInt < 0 := Int8.lt_iff_toInt_lt
  apply UInt16.toNat_inj.mp
  rw [UInt16.toNat_add, toNat_word]
  by_cases h : d < 0
  · rw [if_pos (hneg.mp h)] at hd
    rw [if_pos h]
    show _ = (w.toNat + (255 * 256 + d.toUInt8.toNat)) % 65536
    omega
  · rw [if_neg (mt hneg.mpr h)] at hd
    rw [if_neg h]
    show _ = (w.toNat + (0 * 256 + d.toUInt8.toNat)) % 65536
    omega

/-- The low byte of a displaced word, as the arithmetic unit adds it. -/
def displacedLow (w : UInt16) (d : Int8) : UInt8 :=
  Alu.byteValue .add (lowByte w) d.toUInt8

/-- The high byte takes the sign of the displacement and the carry of the low byte. -/
def displacedHigh (w : UInt16) (d : Int8) : UInt8 :=
  highByte w + (if d < 0 then 0xFF else 0) +
    Alu.lowBit ((Alu.byteFlags .add (lowByte w) d.toUInt8).c.getD false)

theorem lowByte_displace (w : UInt16) (d : Int8) : lowByte (displace w d) = displacedLow w d := by
  rw [displace_eq_add, Alu.lowByte_add, Alu.lowSum, lowByte_word]
  rfl

theorem highByte_displace (w : UInt16) (d : Int8) :
    highByte (displace w d) = displacedHigh w d := by
  rw [displace_eq_add, Alu.highByte_add, Alu.highSum, Alu.lowCarry, highByte_word, lowByte_word]
  rfl

theorem word_displaced (w : UInt16) (d : Int8) :
    word (displacedHigh w d) (displacedLow w d) = displace w d := by
  rw [← highByte_displace, ← lowByte_displace, word_highByte_lowByte]

/-- The flags of a displacement are those of the unsigned addition of its byte. -/
theorem byteFlags_displace (w : UInt16) (d : Int8) :
    Alu.byteFlags .add (lowByte w) d.toUInt8 =
      .all ((w.toNat + d.toUInt8.toNat) % 256 == 0) false
        (16 ≤ w.toNat % 16 + d.toUInt8.toNat % 16)
        (256 ≤ w.toNat % 256 + d.toUInt8.toNat) := by
  simp [Alu.byteFlags, Alu.flags, Alu.addFlags, Alu.carryIn, Alu.nibble, Alu.byteModulus]

end GoldenTrace
