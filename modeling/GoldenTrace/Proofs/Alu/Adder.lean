import GoldenTrace.Alu.Basic
import Mathlib.Algebra.Group.Nat.Defs
import Mathlib.Data.Nat.Bitwise
import Mathlib.Tactic.Common

/-!
# The arithmetic unit as an adder

The arithmetic unit reads its half carry off the low nibbles and its carry off an
unbounded comparison. An adder has neither: it works on words of `k` bits, and its
carries are bits of what it forms. Both agree. The half carry is where bit four of the
result differs from those of the operands, and the carry is the bit above the word.

On the way no number leaves a signed word of 64 bits. Of addition it is also known that
subtraction undoes it together with its carries, for every modulus divisible by sixteen.
-/

namespace GoldenTrace

/-- The operation on words of `k` bits. A comparison forms the difference. -/
def AluOp.onBits {k : Nat} (op : AluOp) (x y carry : BitVec k) : BitVec k :=
  match op with
  | .add => x + y
  | .adc => x + y + carry
  | .sub | .cp => x - y
  | .sbc => x - y - carry
  | .and => x &&& y
  | .or => x ||| y
  | .xor => x ^^^ y

/-- The operations that leave the subtraction flag set. -/
def AluOp.subtracts : AluOp → Bool
  | .sub | .sbc | .cp => true
  | _ => false

namespace Alu

/-! ## Values -/

theorem ofInt_sub {k : Nat} (i j : Int) :
    BitVec.ofInt k (i - j) = BitVec.ofInt k i - BitVec.ofInt k j := by
  rw [Int.sub_eq_add_neg, BitVec.ofInt_add, BitVec.ofInt_neg, BitVec.sub_eq_add_neg]

/-- To reduce modulo a power of two is to work on words of that many bits. -/
theorem value_eq_onBits {op : AluOp} (hop : op ≠ .cp) (k a b : Nat) :
    value op a b (2 ^ k) =
      (op.onBits (BitVec.ofNat k a) (BitVec.ofNat k b) (BitVec.ofNat k 1)).toNat := by
  have hsum (c : Nat) : (a + b + c) % 2 ^ k =
      (BitVec.ofNat k a + BitVec.ofNat k b + BitVec.ofNat k c).toNat := by
    rw [← BitVec.ofNat_add, ← BitVec.ofNat_add]
    exact (BitVec.toNat_ofNat _ _).symm
  have hdifference (c : Nat) : (((a : Int) - b - c) % (2 ^ k : Nat)).toNat =
      (BitVec.ofNat k a - BitVec.ofNat k b - BitVec.ofNat k c).toNat := by
    rw [← BitVec.ofInt_natCast, ← BitVec.ofInt_natCast, ← BitVec.ofInt_natCast, ← ofInt_sub,
      ← ofInt_sub]
    exact (BitVec.toNat_ofInt _).symm
  cases op with
  | add => exact (hsum 0).trans (congrArg BitVec.toNat (BitVec.add_zero _))
  | adc => exact hsum 1
  | sub => exact (hdifference 0).trans (congrArg BitVec.toNat (BitVec.sub_zero _))
  | sbc => exact hdifference 1
  | and =>
      rw [AluOp.onBits, ← BitVec.ofNat_and]
      exact (BitVec.toNat_ofNat _ _).symm
  | or =>
      rw [AluOp.onBits, ← BitVec.ofNat_or]
      exact (BitVec.toNat_ofNat _ _).symm
  | xor =>
      rw [AluOp.onBits, ← BitVec.ofNat_xor]
      exact (BitVec.toNat_ofNat _ _).symm
  | cp => exact absurd rfl hop

/-! ## Carries -/

theorem testBit_four (n : Nat) : n.testBit 4 = decide (n / 16 % 2 = 1) :=
  Nat.testBit_eq_decide_div_mod_eq

/-- Of five bits, the nibbles of a sum hand on the highest. -/
theorem testBit_xor_sum {a b c r : Nat} (h : r % 32 = (a + b + c) % 32) (hc : c ≤ 1) :
    (a ^^^ b ^^^ r).testBit 4 = decide (16 ≤ nibble a + nibble b + c) := by
  unfold nibble
  rw [Nat.testBit_xor, Nat.testBit_xor, testBit_four, testBit_four, testBit_four]
  by_cases ha : a / 16 % 2 = 1 <;> by_cases hb : b / 16 % 2 = 1 <;>
    by_cases hr : r / 16 % 2 = 1 <;> simp [ha, hb, hr] <;> omega

theorem testBit_xor_difference {a b c r : Nat} (h : (r : Int) % 32 = ((a : Int) - b - c) % 32)
    (hc : c ≤ 1) :
    (a ^^^ b ^^^ r).testBit 4 = decide (nibble a < nibble b + c) := by
  unfold nibble
  rw [Nat.testBit_xor, Nat.testBit_xor, testBit_four, testBit_four, testBit_four]
  by_cases ha : a / 16 % 2 = 1 <;> by_cases hb : b / 16 % 2 = 1 <;>
    by_cases hr : r / 16 % 2 = 1 <;> simp [ha, hb, hr] <;> omega

/-- The highest bit of a word tells whether its upper half is reached. -/
theorem testBit_top {n k : Nat} (h : n < 2 ^ (k + 1)) : n.testBit k = decide (2 ^ k ≤ n) := by
  by_cases hn : 2 ^ k ≤ n
  · rw [Nat.testBit_of_two_pow_le_and_two_pow_add_one_gt hn h]
    exact (decide_eq_true hn).symm
  · rw [Nat.testBit_lt_two_pow (Nat.lt_of_not_le hn)]
    exact (decide_eq_false hn).symm

/-- A difference of two numbers below `m` reaches the upper half of its double exactly
if it is negative. -/
theorem le_toNat_emod_iff {m : Nat} {i : Int} (hlow : -m ≤ i) (hhigh : i < m) :
    m ≤ (i % (2 * m : Nat)).toNat ↔ i < 0 := by
  by_cases hneg : i < 0
  · have hmod : i % (2 * m : Nat) = i + (2 * m : Nat) := by
      rw [← Int.add_emod_right]
      exact Int.emod_eq_of_lt (by omega) (by omega)
    rw [hmod]
    omega
  · rw [Int.emod_eq_of_lt (by omega) (by omega)]
    omega

section

variable {k a b c : Nat} (hk : 5 ≤ k) (ha : a < 2 ^ k) (hb : b < 2 ^ k) (hc : c ≤ 1)

include hk ha hb hc

theorem addFlags_eq :
    addFlags a b c (2 ^ k) =
      .all ((a + b + c) % 2 ^ k == 0) false
        ((a ^^^ b ^^^ (a + b + c) % 2 ^ k).testBit 4)
        (((a + b + c) % 2 ^ (k + 1)).testBit k) := by
  have hdvd : 32 ∣ 2 ^ k := Nat.pow_dvd_pow 2 hk
  have hwide : 2 ^ (k + 1) = 2 * 2 ^ k := by rw [Nat.pow_succ, Nat.mul_comm]
  have hlow : (a + b + c) % 2 ^ k % 32 = (a + b + c) % 32 := Nat.mod_mod_of_dvd _ hdvd
  have hsmall : a + b + c < 2 ^ (k + 1) := by omega
  rw [addFlags, testBit_xor_sum hlow hc, Nat.mod_eq_of_lt hsmall, testBit_top hsmall]

theorem subFlags_eq :
    subFlags a b c (2 ^ k) =
      .all ((((a : Int) - b - c) % (2 ^ k : Nat)).toNat == 0) true
        ((a ^^^ b ^^^ (((a : Int) - b - c) % (2 ^ k : Nat)).toNat).testBit 4)
        ((((a : Int) - b - c) % (2 ^ (k + 1) : Nat)).toNat.testBit k) := by
  have hdvd : ((32 : Nat) : Int) ∣ (2 ^ k : Nat) :=
    Int.natCast_dvd_natCast.mpr (Nat.pow_dvd_pow 2 hk)
  have hwide : 2 ^ (k + 1) = 2 * 2 ^ k := by rw [Nat.pow_succ, Nat.mul_comm]
  have hnonneg : 0 ≤ ((a : Int) - b - c) % (2 ^ k : Nat) := Int.emod_nonneg _ (by omega)
  have hlow :
      ((((a : Int) - b - c) % (2 ^ k : Nat)).toNat : Int) % 32 = ((a : Int) - b - c) % 32 := by
    rw [Int.toNat_of_nonneg hnonneg]
    exact Int.emod_emod_of_dvd _ hdvd
  have hzero : (((a : Int) - b - c) % (2 ^ k : Nat) == 0) =
      ((((a : Int) - b - c) % (2 ^ k : Nat)).toNat == 0) := by
    rw [Bool.eq_iff_iff, beq_iff_eq, beq_iff_eq]
    omega
  have hsmall : (((a : Int) - b - c) % (2 ^ (k + 1) : Nat)).toNat < 2 ^ (k + 1) := by
    have hlt := Int.emod_lt_of_pos ((a : Int) - b - c) (b := (2 ^ (k + 1) : Nat)) (by omega)
    omega
  have hborrow : 2 ^ k ≤ (((a : Int) - b - c) % (2 ^ (k + 1) : Nat)).toNat ↔ a < b + c := by
    rw [hwide, le_toNat_emod_iff (by omega) (by omega)]
    omega
  rw [subFlags, hzero, testBit_xor_difference hlow hc, testBit_top hsmall]
  simp only [hborrow]

end

/-! ## Widths -/

/-- A number in a signed word of 64 bits; none if it leaves the word. -/
def signed64? (i : Int) : Option Int :=
  if -0x8000000000000000 ≤ i ∧ i < 0x8000000000000000 then some i else none

/-- A number in an unsigned word of 32 bits. -/
def unsigned32? (i : Int) : Option Nat :=
  if 0 ≤ i ∧ i < 0x100000000 then some i.toNat else none

def sum64? (a b c : Nat) : Option Int := do
  let sum ← signed64? (a + b)
  signed64? (sum + c)

def difference64? (a b c : Nat) : Option Int := do
  let difference ← signed64? (a - b)
  signed64? (difference - c)

def rest64? (total : Int) (modulus : Nat) : Option Int := do
  let m ← signed64? modulus
  signed64? (total % m)

/-- The result before it is reduced. -/
def raw64? (op : AluOp) (a b : Nat) : Option Int :=
  match op with
  | .add | .adc => sum64? a b (carryIn op)
  | .sub | .sbc => difference64? a b (carryIn op)
  | .and => signed64? (a &&& b : Nat)
  | .or => signed64? (a ||| b : Nat)
  | .xor => signed64? (a ^^^ b : Nat)
  | .cp => signed64? a

/-- The value of an operation, in words that must not overflow. -/
def value64? (op : AluOp) (a b modulus : Nat) : Option Nat := do
  let total ← raw64? op a b
  let rest ← rest64? total modulus
  unsigned32? rest

/-- The flags of an operation, in words that must not overflow. -/
def flags64? (op : AluOp) (a b modulus : Nat) : Option FlagUpdate :=
  match op with
  | .add | .adc => do
    let total ← sum64? a b (carryIn op)
    let rest ← rest64? total modulus
    let low ← sum64? (nibble a) (nibble b) (carryIn op)
    let last ← signed64? (modulus - 1)
    return .all (rest == 0) false (low > 15) (total > last)
  | .sub | .sbc | .cp => do
    let total ← difference64? a b (carryIn op)
    let rest ← rest64? total modulus
    let low ← difference64? (nibble a) (nibble b) (carryIn op)
    return .all (rest == 0) true (low < 0) (total < 0)
  | .and | .or | .xor => do
    let total ← raw64? op a b
    return .all (total == 0) false (op = .and) false

/-- The result of an operation before it is reduced. -/
def raw (op : AluOp) (a b : Nat) : Int :=
  match op with
  | .add | .adc => a + b + carryIn op
  | .sub | .sbc => a - b - carryIn op
  | .and => (a &&& b : Nat)
  | .or => (a ||| b : Nat)
  | .xor => (a ^^^ b : Nat)
  | .cp => a

theorem value_eq_raw (op : AluOp) (a b m : Nat) : value op a b m = (raw op a b % m).toNat := by
  cases op <;> rfl

theorem value_lt (op : AluOp) (a b : Nat) {m : Nat} (hm : 0 < m) : value op a b m < m := by
  have hnonneg := Int.emod_nonneg (raw op a b) (b := m) (by omega)
  have hlt := Int.emod_lt_of_pos (raw op a b) (b := m) (by omega)
  rw [value_eq_raw]
  omega

/-- A value brought below a modulus is brought below its divisors too. -/
theorem value_emod {op : AluOp} {a b m n : Nat} (hdvd : m ∣ n) (hn : 0 < n) :
    value op a b n % m = value op a b m := by
  have hnonneg := Int.emod_nonneg (raw op a b) (b := n) (by omega)
  have hrest : raw op a b % n % m = raw op a b % m :=
    Int.emod_emod_of_dvd _ (Int.natCast_dvd_natCast.mpr hdvd)
  rw [value_eq_raw, value_eq_raw, ← hrest, Int.toNat_emod hnonneg (by omega)]
  rfl

theorem toNat_beq_zero (x : UInt8) : (x.toNat == 0) = (x == 0) := by
  rw [Bool.eq_iff_iff, beq_iff_eq, beq_iff_eq, ← UInt8.toNat_inj]
  rfl

/-- A mask of one bit leaves something of a byte exactly if the byte has the bit. -/
theorem and_mask {m : UInt8} {k : Nat} (hm : m.toNat = 2 ^ k) (v : UInt8) :
    (v &&& m == 0) = !v.toNat.testBit k := by
  rw [← toNat_beq_zero, UInt8.toNat_and, hm, Nat.and_two_pow]
  cases v.toNat.testBit k <;> simp

theorem toNat_byteValue (op : AluOp) (x y : UInt8) :
    (byteValue op x y).toNat = value op x.toNat y.toNat (2 ^ 8) := by
  rw [byteValue, UInt8.toNat_ofNat']
  exact Nat.mod_eq_of_lt (value_lt op x.toNat y.toNat (Nat.two_pow_pos 8))

theorem carryIn_le_one (op : AluOp) : carryIn op ≤ 1 := by
  cases op <;> decide

theorem natCast_beq_zero (n : Nat) : ((n : Int) == 0) = (n == 0) := by
  rw [Bool.eq_iff_iff, beq_iff_eq, beq_iff_eq]
  exact Int.natCast_eq_zero

/-- The flags of an addition out of signed numbers. -/
theorem addFlags_signed (a b c m : Nat) :
    .all (((a : Int) + b + c) % m == 0) false ((nibble a : Int) + nibble b + c > 15)
      ((a : Int) + b + c > m - 1) = addFlags a b c m := by
  have hzero : (((a : Int) + b + c) % m == 0) = ((a + b + c) % m == 0) :=
    natCast_beq_zero ((a + b + c) % m)
  have hhalf : (nibble a : Int) + nibble b + c > 15 ↔ nibble a + nibble b + c ≥ 16 := by omega
  have hcarry : (a : Int) + b + c > m - 1 ↔ a + b + c ≥ m := by omega
  rw [addFlags, hzero, decide_eq_decide.mpr hhalf, decide_eq_decide.mpr hcarry]

/-- The flags of a subtraction out of signed numbers. -/
theorem subFlags_signed (a b c m : Nat) :
    .all (((a : Int) - b - c) % m == 0) true ((nibble a : Int) - nibble b - c < 0)
      ((a : Int) - b - c < 0) = subFlags a b c m := by
  have hhalf : (nibble a : Int) - nibble b - c < 0 ↔ nibble a < nibble b + c := by omega
  have hcarry : (a : Int) - b - c < 0 ↔ a < b + c := by omega
  rw [subFlags, decide_eq_decide.mpr hhalf, decide_eq_decide.mpr hcarry]

theorem signed64?_eq {i : Int} (hlow : -0x200000000 ≤ i) (hhigh : i ≤ 0x200000000) :
    signed64? i = some i :=
  if_pos ⟨by omega, by omega⟩

section

variable {a b : Nat} (ha : a < 0x100000000) (hb : b < 0x100000000)

include ha hb

theorem sum64?_eq {c : Nat} (hc : c ≤ 1) : sum64? a b c = some ((a : Int) + b + c) := by
  have hfirst := signed64?_eq (i := (a : Int) + b) (by omega) (by omega)
  have hlast := signed64?_eq (i := (a : Int) + b + c) (by omega) (by omega)
  rw [sum64?, hfirst, Option.bind_eq_bind, Option.bind_some, hlast]

theorem difference64?_eq {c : Nat} (hc : c ≤ 1) :
    difference64? a b c = some ((a : Int) - b - c) := by
  have hfirst := signed64?_eq (i := (a : Int) - b) (by omega) (by omega)
  have hlast := signed64?_eq (i := (a : Int) - b - c) (by omega) (by omega)
  rw [difference64?, hfirst, Option.bind_eq_bind, Option.bind_some, hlast]

theorem raw64?_eq (op : AluOp) : raw64? op a b = some (raw op a b) := by
  have hc := carryIn_le_one op
  have hand : a &&& b < 0x100000000 := Nat.and_lt_two_pow (n := 32) a hb
  have hor : a ||| b < 0x100000000 := Nat.or_lt_two_pow (n := 32) ha hb
  have hxor : a ^^^ b < 0x100000000 := Nat.xor_lt_two_pow (n := 32) ha hb
  cases op with
  | add | adc => exact sum64?_eq ha hb hc
  | sub | sbc => exact difference64?_eq ha hb hc
  | and | or | xor | cp => exact signed64?_eq (by omega) (by omega)

end

section

variable {m : Nat} (hpos : 0 < m) (hm : m < 0x100000000)

include hpos hm

theorem rest64?_eq (i : Int) : rest64? i m = some (i % m) := by
  have hnonneg := Int.emod_nonneg i (b := m) (by omega)
  have hlt := Int.emod_lt_of_pos i (b := m) (by omega)
  have hmodulus := signed64?_eq (i := (m : Int)) (by omega) (by omega)
  have hrest := signed64?_eq (i := i % m) (by omega) (by omega)
  rw [rest64?, hmodulus, Option.bind_eq_bind, Option.bind_some, hrest]

theorem unsigned32?_emod (i : Int) : unsigned32? (i % m) = some (i % m).toNat := by
  have hnonneg := Int.emod_nonneg i (b := m) (by omega)
  have hlt := Int.emod_lt_of_pos i (b := m) (by omega)
  exact if_pos ⟨hnonneg, by omega⟩

variable {a b : Nat} (ha : a < 0x100000000) (hb : b < 0x100000000)

include ha hb

theorem value64?_eq (op : AluOp) : value64? op a b m = some (value op a b m) := by
  rw [value64?, raw64?_eq ha hb, Option.bind_eq_bind, Option.bind_some, rest64?_eq hpos hm,
    Option.bind_some, unsigned32?_emod hpos hm, value_eq_raw]

theorem flags64?_eq (op : AluOp) : flags64? op a b m = some (flags op a b m) := by
  have hc := carryIn_le_one op
  have hna : nibble a < 16 := Nat.mod_lt a (by decide)
  have hnb : nibble b < 16 := Nat.mod_lt b (by decide)
  have hrest := rest64?_eq hpos hm
  cases op with
  | add | adc =>
      have hsum := sum64?_eq ha hb hc
      have hlow := sum64?_eq (a := nibble a) (b := nibble b) (by omega) (by omega) hc
      have hlast := signed64?_eq (i := (m : Int) - 1) (by omega) (by omega)
      rw [flags64?, hsum, Option.bind_eq_bind, Option.bind_some, hrest, Option.bind_some, hlow,
        Option.bind_some, hlast, Option.bind_some]
      exact congrArg some (addFlags_signed a b _ m)
  | sub | sbc | cp =>
      have hdifference := difference64?_eq ha hb hc
      have hlow := difference64?_eq (a := nibble a) (b := nibble b) (by omega) (by omega) hc
      rw [flags64?, hdifference, Option.bind_eq_bind, Option.bind_some, hrest, Option.bind_some,
        hlow, Option.bind_some]
      exact congrArg some (subFlags_signed a b _ m)
  | and | or | xor =>
      rw [flags64?, raw64?_eq ha hb, Option.bind_eq_bind, Option.bind_some, raw, natCast_beq_zero]
      rfl

end

/-! ## The adder -/

/-- The laws that make the unit an adder of `k` bits for two operands. -/
structure Adder (k a b : Nat) : Prop where
  /-- The value is formed on words of `k` bits. The half carry is where bit four of the
  value differs from those of the operands, and the carry is the bit above the word. -/
  arithmetic : ∀ op ∈ [AluOp.add, .adc, .sub, .sbc],
    value op a b (2 ^ k) =
        (op.onBits (BitVec.ofNat k a) (BitVec.ofNat k b) (BitVec.ofNat k 1)).toNat ∧
      flags op a b (2 ^ k) =
        .all (value op a b (2 ^ k) == 0) op.subtracts
          ((a ^^^ b ^^^ value op a b (2 ^ k)).testBit 4)
          ((value op a b (2 ^ (k + 1))).testBit k)
  /-- A comparison is a subtraction that keeps its first operand. -/
  comparison : flags .cp a b (2 ^ k) = flags .sub a b (2 ^ k) ∧ value .cp a b (2 ^ k) = a
  and : value .and a b (2 ^ k) = a &&& b
  or : value .or a b (2 ^ k) = a ||| b
  xor : value .xor a b (2 ^ k) = a ^^^ b
  logic : ∀ op ∈ [AluOp.and, .or, .xor],
    value op a b (2 ^ k) < 2 ^ k ∧
      flags op a b (2 ^ k) = .all (value op a b (2 ^ k) == 0) false (op = .and) false
  /-- At either modulus no number on the way leaves a signed word of 64 bits, and the value
  fits an unsigned one of 32. -/
  widths : ∀ op, ∀ m ∈ [2 ^ k, 2 ^ (k + 1)],
    value64? op a b m = some (value op a b m) ∧ flags64? op a b m = some (flags op a b m)

theorem value_and {k b : Nat} (a : Nat) (hb : b < 2 ^ k) : value .and a b (2 ^ k) = a &&& b :=
  Nat.mod_eq_of_lt (Nat.and_lt_two_pow a hb)

section

variable {k a b : Nat} (ha : a < 2 ^ k) (hb : b < 2 ^ k)

include ha hb

theorem flags_of_arithmetic (hk : 5 ≤ k) {op : AluOp} (hop : op ∈ [AluOp.add, .adc, .sub, .sbc]) :
    flags op a b (2 ^ k) =
      .all (value op a b (2 ^ k) == 0) op.subtracts
        ((a ^^^ b ^^^ value op a b (2 ^ k)).testBit 4)
        ((value op a b (2 ^ (k + 1))).testBit k) := by
  have hc := carryIn_le_one op
  simp only [List.mem_cons, List.not_mem_nil, or_false] at hop
  rcases hop with rfl | rfl | rfl | rfl
  · exact addFlags_eq hk ha hb hc
  · exact addFlags_eq hk ha hb hc
  · exact subFlags_eq hk ha hb hc
  · exact subFlags_eq hk ha hb hc

theorem value_or : value .or a b (2 ^ k) = a ||| b :=
  Nat.mod_eq_of_lt (Nat.or_lt_two_pow ha hb)

theorem value_xor : value .xor a b (2 ^ k) = a ^^^ b :=
  Nat.mod_eq_of_lt (Nat.xor_lt_two_pow ha hb)

theorem flags_of_logic {op : AluOp} (hop : op ∈ [AluOp.and, .or, .xor]) :
    flags op a b (2 ^ k) = .all (value op a b (2 ^ k) == 0) false (op = .and) false := by
  simp only [List.mem_cons, List.not_mem_nil, or_false] at hop
  rcases hop with rfl | rfl | rfl
  · rw [value_and a hb]
    rfl
  · rw [value_or ha hb]
    rfl
  · rw [value_xor ha hb]
    rfl

/-- **The unit is an adder** of any width from five bits to thirty. -/
theorem adder (hlow : 5 ≤ k) (hhigh : k ≤ 30) : Adder k a b where
  arithmetic op hop := by
    refine ⟨value_eq_onBits ?_ k a b, flags_of_arithmetic ha hb hlow hop⟩
    rintro rfl
    exact absurd hop (by decide)
  comparison := ⟨rfl, Nat.mod_eq_of_lt ha⟩
  and := value_and a hb
  or := value_or ha hb
  xor := value_xor ha hb
  logic op hop := ⟨value_lt op a b (Nat.two_pow_pos k), flags_of_logic ha hb hop⟩
  widths op m hm := by
    have hwide : 2 ^ (k + 1) ≤ 2 ^ 31 := Nat.pow_le_pow_right (by decide) (by omega)
    have hdouble : 2 ^ (k + 1) = 2 * 2 ^ k := by rw [Nat.pow_succ, Nat.mul_comm]
    have hpos : 0 < 2 ^ k := Nat.two_pow_pos k
    have hbounds : 0 < m ∧ m < 0x100000000 := by
      simp only [List.mem_cons, List.not_mem_nil, or_false] at hm
      rcases hm with rfl | rfl <;> omega
    obtain ⟨hmpos, hmlt⟩ := hbounds
    exact ⟨value64?_eq hmpos hmlt (by omega) (by omega) op,
      flags64?_eq hmpos hmlt (by omega) (by omega) op⟩

end

/-- A word of twelve bits, where subtraction with carry borrows from beyond the word and
across its low nibble: `0x010 - 0x70F - 1 = -0x700`. -/
theorem adder_twelve :
    (5 ≤ 12 ∧ 12 ≤ 30 ∧ 0x010 < 2 ^ 12 ∧ 0x70F < 2 ^ 12) ∧ Adder 12 0x010 0x70F ∧
      value .sbc 0x010 0x70F (2 ^ 12) = 0x900 ∧
      flags .sbc 0x010 0x70F (2 ^ 12) = .all false true true true := by
  refine ⟨by decide, adder ?_ ?_ ?_ ?_, ?_, ?_⟩ <;> decide

/-! ## Undoing an addition -/

/-- A sum that is brought below its modulus wraps at most once. -/
theorem sum_emod {m a b c : Nat} (ha : a < m) (hb : b < m) (hc : c ≤ 1) :
    a + b + c < m ∧ (a + b + c) % m = a + b + c ∨
      m ≤ a + b + c ∧ (a + b + c) % m + m = a + b + c := by
  by_cases hwrap : m ≤ a + b + c
  · have hrest : (a + b + c - m) % m = a + b + c - m := Nat.mod_eq_of_lt (by omega)
    rw [Nat.mod_eq_sub_mod hwrap, hrest]
    omega
  · exact .inl ⟨by omega, Nat.mod_eq_of_lt (by omega)⟩

section

variable {m a b c : Nat} (ha : a < m) (hb : b < m) (hc : c ≤ 1)

include ha hb hc

/-- To take an operand from a sum borrows exactly if to add it carried. -/
theorem borrow_iff_carry : (a + b + c) % m < b + c ↔ m ≤ a + b + c := by
  rcases sum_emod ha hb hc with ⟨hfits, hsum⟩ | ⟨hwraps, hsum⟩
  · omega
  · omega

theorem difference_of_sum : ((((a + b + c) % m : Nat) : Int) - b - c) % m = a := by
  rcases sum_emod ha hb hc with ⟨hfits, hsum⟩ | ⟨hwraps, hsum⟩
  · have hdifference : (((a + b + c) % m : Nat) : Int) - b - c = a := by omega
    rw [hdifference]
    exact Int.emod_eq_of_lt (by omega) (by omega)
  · have hdifference : (((a + b + c) % m : Nat) : Int) - b - c = a - m := by omega
    rw [hdifference, Int.sub_emod_right]
    exact Int.emod_eq_of_lt (by omega) (by omega)

end

/-- The low nibbles are numbers below a modulus of their own, which divides the other. -/
theorem halfBorrow_iff_halfCarry {m c : Nat} (a b : Nat) (hc : c ≤ 1) (hm : 16 ∣ m) :
    nibble ((a + b + c) % m) < nibble b + c ↔ 16 ≤ nibble a + nibble b + c := by
  have hna : nibble a < 16 := Nat.mod_lt a (by decide)
  have hnb : nibble b < 16 := Nat.mod_lt b (by decide)
  have hnibble : nibble ((a + b + c) % m) = (nibble a + nibble b + c) % 16 := by
    unfold nibble
    rw [Nat.mod_mod_of_dvd _ hm]
    omega
  rw [hnibble]
  exact borrow_iff_carry hna hnb hc

theorem subFlags_sum {m a b c : Nat} (ha : a < m) (hb : b < m) (hc : c ≤ 1) (hm : 16 ∣ m) :
    subFlags ((a + b + c) % m) b c m =
      { addFlags a b c m with z := some (a == 0), n := some true } := by
  rw [subFlags, difference_of_sum ha hb hc, natCast_beq_zero,
    decide_eq_decide.mpr (halfBorrow_iff_halfCarry a b hc hm),
    decide_eq_decide.mpr (borrow_iff_carry ha hb hc)]
  rfl

end Alu

/-- The operation that undoes an addition, with the same carry. -/
def AluOp.undoneBy? : AluOp → Option AluOp
  | .add => some .sub
  | .adc => some .sbc
  | _ => none

namespace Alu

/-- **Subtraction undoes addition together with its carries.** It gives back the first
operand, and leaves the half carry and the carry as the addition left them. -/
theorem inverse_undoes {op inv : AluOp} {m a b : Nat} (hinv : op.undoneBy? = some inv)
    (hm : 16 ∣ m) (ha : a < m) (hb : b < m) :
    value inv (value op a b m) b m = a ∧
      flags inv (value op a b m) b m =
        { flags op a b m with z := some (a == 0), n := some true } := by
  cases op with
  | add =>
      cases hinv
      exact ⟨congrArg Int.toNat (difference_of_sum ha hb (Nat.zero_le 1)),
        subFlags_sum ha hb (Nat.zero_le 1) hm⟩
  | adc =>
      cases hinv
      exact ⟨congrArg Int.toNat (difference_of_sum ha hb Nat.le.refl),
        subFlags_sum ha hb Nat.le.refl hm⟩
  | sub | sbc | and | or | xor | cp => cases hinv

/-- A modulus that is no power of two, and a sum that carries out of it but not out of its
low nibble. -/
theorem inverse_undoes_fortyEight :
    (AluOp.adc.undoneBy? = some .sbc ∧ 16 ∣ 48 ∧ 33 < 48 ∧ 32 < 48) ∧
      value .sbc (value .adc 33 32 48) 32 48 = 33 ∧
      flags .sbc (value .adc 33 32 48) 32 48 =
        { flags .adc 33 32 48 with z := some false, n := some true } ∧
      flags .adc 33 32 48 = .all false false false true := by
  have hinv : AluOp.adc.undoneBy? = some .sbc := rfl
  obtain ⟨hvalue, hflags⟩ :=
    inverse_undoes (m := 48) (a := 33) (b := 32) hinv (by decide) (by decide) (by decide)
  exact ⟨by decide, hvalue, hflags, by decide⟩

end Alu
end GoldenTrace
