import GoldenTrace.Alu.Adjust
import GoldenTrace.Proofs.Alu.Adder
import GoldenTrace.Proofs.FlagState
import Mathlib.Data.Nat.Digits.Defs
import Mathlib.Tactic.LinearCombination

/-!
# Decimal arithmetic

A byte holds two decimal digits, one in each nibble. The arithmetic unit adds and subtracts
bytes in binary, and decimal adjustment puts the digits right, guided by the flags. So a
chain of additions or subtractions, each followed by an adjustment, computes on decimal
numbers of any length: the bytes are the digits of the result, and the last carry tells
whether it has left its range.
-/

namespace GoldenTrace.Decimal

/-! ## Packed numbers -/

/-- Both nibbles are decimal digits. -/
def Digits (v : UInt8) : Prop :=
  v.toNat / 16 ≤ 9 ∧ v.toNat % 16 ≤ 9

/-- The number below a hundred that two digits stand for. -/
def value (v : UInt8) : Nat :=
  v.toNat / 16 * 10 + v.toNat % 16

/-- The number that bytes of two digits stand for, with the lowest digits first. -/
def number (bytes : List UInt8) : Nat :=
  Nat.ofDigits 100 (bytes.map value)

/-- The bytes are the `2 * n` decimal digits of `m`. -/
structure Packed (n m : Nat) (bytes : List UInt8) : Prop where
  length : bytes.length = n
  digits : ∀ v ∈ bytes, Digits v
  number : number bytes = m

theorem value_lt {v : UInt8} (h : Digits v) : value v < 100 := by
  obtain ⟨hhigh, hlow⟩ := h
  rw [value]
  omega

theorem number_cons (v : UInt8) (bytes : List UInt8) :
    number (v :: bytes) = value v + 100 * number bytes :=
  Nat.ofDigits_cons

theorem number_lt {bytes : List UInt8} (h : ∀ v ∈ bytes, Digits v) :
    number bytes < 100 ^ bytes.length := by
  have hvalues : ∀ d ∈ bytes.map value, d < 100 := by
    intro d hd
    obtain ⟨v, hv, rfl⟩ := List.mem_map.mp hd
    exact value_lt (h v hv)
  have hlt := Nat.ofDigits_lt_base_pow_length (by decide) hvalues
  rwa [List.length_map] at hlt

/-! ## Chains -/

/-- One operation followed by an adjustment: the adjusted byte, and the flags behind both. -/
def adjusted (op : AluOp) (flags : Flags) (x y : UInt8) : UInt8 × Flags :=
  let reported := flags.update (Alu.byteFlags op x y)
  let result := Alu.daa (Alu.byteValue op x y) reported
  (result.1, reported.update result.2)

/-- Combines two numbers byte by byte. Where the carry is set, the operation that takes it is
used in place of the plain one. -/
def chain (plain carrying : AluOp) (flags : Flags) : List UInt8 → List UInt8 → List UInt8 × Flags
  | x :: xs, y :: ys =>
    let first := adjusted (if flags.c then carrying else plain) flags x y
    let rest := chain plain carrying first.2 xs ys
    (first.1 :: rest.1, rest.2)
  | _, _ => ([], flags)

/-! ## One byte -/

theorem toNat_correction (high low : Bool) :
    ((if high then 0x60 else 0) ||| (if low then 0x06 else 0) : UInt8).toNat =
      96 * high.toNat + 6 * low.toNat := by
  cases high <;> cases low <;> rfl

theorem carry_correction (high low : Bool) :
    decide (((if high then 0x60 else 0) ||| (if low then 0x06 else 0) : UInt8).toNat ≥ 0x60) =
      high := by
  cases high <;> cases low <;> rfl

/-- After an addition a nibble is corrected if it carried or is no digit. -/
theorem daa_of_sum {flags : Flags} (hn : flags.n = false) (a : UInt8) :
    (Alu.daa a flags).1.toNat =
        (a.toNat + (96 * (flags.c || decide (a.toNat > 0x99)).toNat +
          6 * (flags.h || decide (a.toNat % 16 > 9)).toNat)) % 256 ∧
      (Alu.daa a flags).2.c = some (flags.c || decide (a.toNat > 0x99)) := by
  rw [Alu.daa, hn]
  constructor
  · show (a + Alu.sumCorrection a flags).toNat = _
    rw [UInt8.toNat_add, Alu.sumCorrection, toNat_correction]
  · show some (decide ((Alu.sumCorrection a flags).toNat ≥ 0x60)) = _
    rw [Alu.sumCorrection, carry_correction]

/-- After a subtraction a nibble is corrected if it borrowed. -/
theorem daa_of_difference {flags : Flags} (hn : flags.n = true) (a : UInt8) :
    (Alu.daa a flags).1.toNat =
        (256 - (96 * flags.c.toNat + 6 * flags.h.toNat) + a.toNat) % 256 ∧
      (Alu.daa a flags).2.c = some flags.c := by
  rw [Alu.daa, hn]
  constructor
  · show (a - Alu.differenceCorrection flags).toNat = _
    rw [UInt8.toNat_sub, Alu.differenceCorrection, toNat_correction]
  · show some (decide ((Alu.differenceCorrection flags).toNat ≥ 0x60)) = _
    rw [Alu.differenceCorrection, carry_correction]

theorem byteFlags_sum (carry : Bool) (x y : UInt8) :
    Alu.byteFlags (if carry then .adc else .add) x y =
      Alu.addFlags x.toNat y.toNat carry.toNat Alu.byteModulus := by
  cases carry <;> rfl

theorem toNat_byteValue_sum (carry : Bool) (x y : UInt8) :
    (Alu.byteValue (if carry then .adc else .add) x y).toNat =
      (x.toNat + y.toNat + carry.toNat) % 256 := by
  rw [Alu.toNat_byteValue]
  cases carry <;> rfl

theorem byteFlags_difference (carry : Bool) (x y : UInt8) :
    Alu.byteFlags (if carry then .sbc else .sub) x y =
      Alu.subFlags x.toNat y.toNat carry.toNat Alu.byteModulus := by
  cases carry <;> rfl

theorem toNat_byteValue_difference (carry : Bool) (x y : UInt8) :
    (Alu.byteValue (if carry then .sbc else .sub) x y).toNat =
      (((x.toNat : Int) - y.toNat - carry.toNat) % 256).toNat := by
  rw [Alu.toNat_byteValue]
  cases carry <;> rfl

section

variable {flags next : Flags} {x y v : UInt8}

/-- An addition and its adjustment, in numbers: which nibbles are corrected, and what this
makes of the byte and of the carry. -/
theorem adjusted_of_sum (h : adjusted (if flags.c then .adc else .add) flags x y = (v, next)) :
    ∃ high low : Bool,
      (high = true ↔ x.toNat + y.toNat + flags.c.toNat ≥ 256 ∨
        (x.toNat + y.toNat + flags.c.toNat) % 256 > 0x99) ∧
      (low = true ↔ x.toNat % 16 + y.toNat % 16 + flags.c.toNat ≥ 16 ∨
        (x.toNat + y.toNat + flags.c.toNat) % 256 % 16 > 9) ∧
      v.toNat = ((x.toNat + y.toNat + flags.c.toNat) % 256 +
        (96 * high.toNat + 6 * low.toNat)) % 256 ∧
      next.c = high := by
  obtain ⟨hv, hnext⟩ := Prod.mk.inj h
  have hn : (flags.update (Alu.byteFlags (if flags.c then .adc else .add) x y)).n = false := by
    rw [byteFlags_sum]
    rfl
  obtain ⟨hvalue, hcarry⟩ := daa_of_sum hn (Alu.byteValue (if flags.c then .adc else .add) x y)
  rw [hv, toNat_byteValue_sum, byteFlags_sum] at hvalue
  refine ⟨_, _, ?_, ?_, hvalue, ?_⟩
  · rw [Bool.or_eq_true, decide_eq_true_eq]
    exact or_congr_left decide_eq_true_iff
  · rw [Bool.or_eq_true, decide_eq_true_eq]
    exact or_congr_left decide_eq_true_iff
  · rw [← hnext, Flags.update, hcarry, toNat_byteValue_sum, byteFlags_sum]
    rfl

/-- A subtraction and its adjustment, in numbers. -/
theorem adjusted_of_difference
    (h : adjusted (if flags.c then .sbc else .sub) flags x y = (v, next)) :
    ∃ high low : Bool,
      (high = true ↔ x.toNat < y.toNat + flags.c.toNat) ∧
      (low = true ↔ x.toNat % 16 < y.toNat % 16 + flags.c.toNat) ∧
      v.toNat = (256 - (96 * high.toNat + 6 * low.toNat) +
        (((x.toNat : Int) - y.toNat - flags.c.toNat) % 256).toNat) % 256 ∧
      next.c = high := by
  obtain ⟨hv, hnext⟩ := Prod.mk.inj h
  have hn : (flags.update (Alu.byteFlags (if flags.c then .sbc else .sub) x y)).n = true := by
    rw [byteFlags_difference]
    rfl
  obtain ⟨hvalue, hcarry⟩ :=
    daa_of_difference hn (Alu.byteValue (if flags.c then .sbc else .sub) x y)
  rw [hv, toNat_byteValue_difference, byteFlags_difference] at hvalue
  refine ⟨_, _, decide_eq_true_iff, decide_eq_true_iff, hvalue, ?_⟩
  rw [← hnext, Flags.update, hcarry, byteFlags_difference]
  rfl

end

/-- What is carried out of a byte counts as a hundred, and what is carried into it as one.
The sign tells sums from differences. -/
def Carries (plain carrying : AluOp) (sign : Int) : Prop :=
  ∀ (flags next : Flags) (x y v : UInt8), Digits x → Digits y →
    adjusted (if flags.c then carrying else plain) flags x y = (v, next) →
    Digits v ∧
      (value v : Int) + sign * (100 * next.c.toNat) = value x + sign * (value y + flags.c.toNat)

theorem carries_sum : Carries .add .adc 1 := by
  rintro flags next x y v ⟨hxhigh, hxlow⟩ ⟨hyhigh, hylow⟩ h
  obtain ⟨high, low, hhigh, hlow, hv, hc⟩ := adjusted_of_sum h
  have hcarry : flags.c.toNat ≤ 1 := Bool.toNat_le _
  rw [hc]
  unfold Digits value
  -- each nibble is corrected or not
  cases high <;> cases low <;>
    simp only [Bool.toNat_true, Bool.toNat_false, Bool.false_eq_true, true_iff, false_iff]
      at hhigh hlow hv ⊢ <;>
    omega

theorem carries_difference : Carries .sub .sbc (-1) := by
  rintro flags next x y v ⟨hxhigh, hxlow⟩ ⟨hyhigh, hylow⟩ h
  obtain ⟨high, low, hhigh, hlow, hv, hc⟩ := adjusted_of_difference h
  have hcarry : flags.c.toNat ≤ 1 := Bool.toNat_le _
  rw [hc]
  unfold Digits value
  cases high <;> cases low <;>
    simp only [Bool.toNat_true, Bool.toNat_false, Bool.false_eq_true, true_iff, false_iff]
      at hhigh hlow hv ⊢ <;>
    omega

/-! ## All bytes -/

section

variable {plain carrying : AluOp} {flags last : Flags} {xs ys vs : List UInt8}

theorem exists_of_chain_cons {x y : UInt8}
    (h : chain plain carrying flags (x :: xs) (y :: ys) = (vs, last)) :
    ∃ v rest next, vs = v :: rest ∧
      adjusted (if flags.c then carrying else plain) flags x y = (v, next) ∧
      chain plain carrying next xs ys = (rest, last) := by
  obtain ⟨rfl, rfl⟩ := Prod.mk.inj h
  exact ⟨_, _, _, rfl, rfl, rfl⟩

/-- Carries are handed on from byte to byte, so only the last one is left. -/
theorem chain_of_carries {sign : Int} (hcarries : Carries plain carrying sign)
    (hlength : xs.length = ys.length) (hx : ∀ x ∈ xs, Digits x) (hy : ∀ y ∈ ys, Digits y)
    (h : chain plain carrying flags xs ys = (vs, last)) :
    vs.length = xs.length ∧ (∀ v ∈ vs, Digits v) ∧
      (number vs : Int) + sign * (100 ^ xs.length * last.c.toNat) =
        number xs + sign * (number ys + flags.c.toNat) := by
  induction xs generalizing ys vs flags with
  | nil =>
      obtain rfl := List.length_eq_zero_iff.mp hlength.symm
      obtain ⟨rfl, rfl⟩ := Prod.mk.inj h
      refine ⟨rfl, hx, ?_⟩
      rw [List.length_nil, pow_zero, one_mul]
      simp [number]
  | cons x xs ih =>
      obtain ⟨y, ys, rfl⟩ := List.exists_cons_of_length_eq_add_one hlength.symm
      obtain ⟨v, rest, next, rfl, hstep, hrest⟩ := exists_of_chain_cons h
      obtain ⟨hxfirst, hxs⟩ := List.forall_mem_cons.mp hx
      obtain ⟨hyfirst, hys⟩ := List.forall_mem_cons.mp hy
      obtain ⟨hv, hfirst⟩ := hcarries flags next x y v hxfirst hyfirst hstep
      obtain ⟨hlen, hvs, hrun⟩ := ih (Nat.succ.inj hlength) hxs hys hrest
      refine ⟨congrArg Nat.succ hlen, List.forall_mem_cons.mpr ⟨hv, hvs⟩, ?_⟩
      rw [number_cons, number_cons, number_cons, List.length_cons, pow_succ]
      push_cast
      -- the carry out of the first byte is the one into the others
      linear_combination hfirst + 100 * hrun

end

/-! ## Results -/

/-- A sum that has carried at most once is the rest by its modulus. -/
theorem rest_of_sum {r m s : Nat} {carry : Bool} (hlt : r < m) (h : r + m * carry.toNat = s) :
    r = s % m ∧ carry = decide (m ≤ s) := by
  cases carry with
  | false =>
      obtain rfl : r = s := h
      rw [Nat.mod_eq_of_lt hlt]
      exact ⟨rfl, (decide_eq_false (Nat.not_le.mpr hlt)).symm⟩
  | true =>
      rw [Bool.toNat_true, Nat.mul_one] at h
      subst h
      rw [Nat.add_mod_right, Nat.mod_eq_of_lt hlt]
      exact ⟨rfl, (decide_eq_true (Nat.le_add_left m r)).symm⟩

/-- A difference that has borrowed at most once is the rest by its modulus. -/
theorem rest_of_difference {r m a b : Nat} {borrow : Bool} (hlt : r < m)
    (h : (r : Int) - m * borrow.toNat = a - b) :
    r = (((a : Int) - b) % m).toNat ∧ borrow = decide (a < b) := by
  cases borrow with
  | false =>
      have hdifference : (a : Int) - b = r := by
        rw [Bool.toNat_false] at h
        omega
      have hle : ¬ a < b := by omega
      rw [hdifference, Int.emod_eq_of_lt (by omega) (by omega)]
      exact ⟨rfl, (decide_eq_false hle).symm⟩
  | true =>
      have hdifference : (a : Int) - b = r - m := by
        rw [Bool.toNat_true] at h
        omega
      have hlt' : a < b := by omega
      rw [hdifference, Int.sub_emod_right, Int.emod_eq_of_lt (by omega) (by omega)]
      exact ⟨rfl, (decide_eq_true hlt').symm⟩

/-- **Decimal arithmetic.** Of packed numbers of `n` bytes, a chain of additions that are
adjusted gives the packed sum modulo a hundred to the `n`, and its last carry tells whether
the sum has left this range. A chain of subtractions gives the packed difference in the same
way, and its last carry tells whether the difference is negative. -/
theorem packed_chain {n a b : Nat} {xs ys : List UInt8} {flags : Flags} (hx : Packed n a xs)
    (hy : Packed n b ys) (hcarry : flags.c = false) :
    (Packed n ((a + b) % 100 ^ n) (chain .add .adc flags xs ys).1 ∧
      (chain .add .adc flags xs ys).2.c = decide (100 ^ n ≤ a + b)) ∧
    (Packed n (((a : Int) - b) % (100 ^ n : Nat)).toNat (chain .sub .sbc flags xs ys).1 ∧
      (chain .sub .sbc flags xs ys).2.c = decide (a < b)) := by
  obtain ⟨rfl, hxs, rfl⟩ := hx
  obtain ⟨hlength, hys, rfl⟩ := hy
  have hnone : (flags.c.toNat : Int) = 0 := by
    rw [hcarry]
    rfl
  constructor
  · rcases hchain : chain .add .adc flags xs ys with ⟨vs, last⟩
    obtain ⟨hlen, hvs, hrun⟩ := chain_of_carries carries_sum hlength.symm hxs hys hchain
    have hlt := hlen ▸ number_lt hvs
    have hsum : number vs + 100 ^ xs.length * last.c.toNat = number xs + number ys := by
      zify
      linear_combination hrun + hnone
    obtain ⟨hnumber, hlast⟩ := rest_of_sum hlt hsum
    exact ⟨⟨hlen, hvs, hnumber⟩, hlast⟩
  · rcases hchain : chain .sub .sbc flags xs ys with ⟨vs, last⟩
    obtain ⟨hlen, hvs, hrun⟩ := chain_of_carries carries_difference hlength.symm hxs hys hchain
    have hlt := hlen ▸ number_lt hvs
    have hdifference : (number vs : Int) - (100 ^ xs.length : Nat) * last.c.toNat =
        number xs - number ys := by
      push_cast
      linear_combination hrun - hnone
    obtain ⟨hnumber, hlast⟩ := rest_of_difference hlt hdifference
    exact ⟨⟨hlen, hvs, hnumber⟩, hlast⟩

/-- `2958 + 7142 = 10100` leaves the range of four digits, and `2958 - 7142` is negative. -/
theorem packed_chain_fourDigits :
    Packed 2 2958 [0x58, 0x29] ∧ Packed 2 7142 [0x42, 0x71] ∧
      Packed 2 100 (chain .add .adc (.ofByte 0) [0x58, 0x29] [0x42, 0x71]).1 ∧
      (chain .add .adc (.ofByte 0) [0x58, 0x29] [0x42, 0x71]).2.c = true ∧
      Packed 2 5816 (chain .sub .sbc (.ofByte 0) [0x58, 0x29] [0x42, 0x71]).1 ∧
      (chain .sub .sbc (.ofByte 0) [0x58, 0x29] [0x42, 0x71]).2.c = true ∧
      (chain .add .adc (.ofByte 0) [0x58, 0x29] [0x42, 0x71]).1 = [0x00, 0x01] := by
  have hx : Packed 2 2958 [0x58, 0x29] := ⟨rfl, by simp [Digits], by decide⟩
  have hy : Packed 2 7142 [0x42, 0x71] := ⟨rfl, by simp [Digits], by decide⟩
  have hclear : (Flags.ofByte 0).c = false := rfl
  obtain ⟨⟨hsum, hcarry⟩, hdifference, hborrow⟩ := packed_chain hx hy hclear
  exact ⟨hx, hy, hsum, hcarry, hdifference, hborrow, by decide⟩

end GoldenTrace.Decimal
