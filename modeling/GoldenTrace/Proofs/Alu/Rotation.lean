import GoldenTrace.Proofs.Alu.Passes
import Mathlib.Data.Nat.Digits.Lemmas
import Mathlib.Tactic.LinearCombination

/-!
# Rotations through many bytes

A rotation through the carry takes one bit in and gives one bit out. If the carry is handed
from byte to byte, a number of any length moves by one bit: to the left if its lowest byte comes
first, and to the right if its highest does. The one undoes the other. A shift is such a
rotation whose first carry is fixed, and may begin it.
-/

namespace GoldenTrace.Rotation

/-! ## Numbers -/

/-- The number that bytes stand for, with the lowest byte first. -/
def number (bytes : List UInt8) : Nat :=
  Nat.ofDigits 256 (bytes.map UInt8.toNat)

/-- The bytes of the number `x` of `n` bytes, the lowest first. -/
structure BytesOf (n x : Nat) (bytes : List UInt8) : Prop where
  length : bytes.length = n
  number : number bytes = x

theorem number_cons (v : UInt8) (bytes : List UInt8) :
    number (v :: bytes) = v.toNat + 256 * number bytes :=
  Nat.ofDigits_cons

theorem number_concat (bytes : List UInt8) (v : UInt8) :
    number (bytes ++ [v]) = number bytes + 256 ^ bytes.length * v.toNat := by
  unfold number
  rw [List.map_append, Nat.ofDigits_append, List.length_map, List.map_singleton,
    Nat.ofDigits_singleton]

theorem digit_lt (bytes : List UInt8) : ∀ d ∈ bytes.map UInt8.toNat, d < 256 := by
  intro d hd
  obtain ⟨v, -, rfl⟩ := List.mem_map.mp hd
  exact v.toNat_lt

theorem number_lt (bytes : List UInt8) : number bytes < 256 ^ bytes.length := by
  have hlt := Nat.ofDigits_lt_base_pow_length (by decide) (digit_lt bytes)
  rwa [List.length_map] at hlt

/-- As many bytes stand for one number in one way only. -/
theorem BytesOf.unique {n x : Nat} {bytes bytes' : List UInt8} (h : BytesOf n x bytes)
    (h' : BytesOf n x bytes') : bytes = bytes' := by
  have hlength : (bytes.map UInt8.toNat).length = (bytes'.map UInt8.toNat).length := by
    rw [List.length_map, List.length_map, h.length, h'.length]
  have hdigits := Nat.ofDigits_inj_of_len_eq (by decide) hlength (digit_lt bytes)
    (digit_lt bytes') (h.number.trans h'.number.symm)
  have hinjective : Function.Injective UInt8.toNat := fun _ _ => UInt8.toNat_inj.mp
  exact hinjective.list_map hdigits

/-! ## Chains -/

/-- The byte and the carry behind a rotation. A carry without a state is left as it was. -/
def rotated (op : RotateOp) (v : UInt8) (carry : Bool) : UInt8 × Bool :=
  let result := Alu.rotate op v carry
  (result.1, result.2.c.getD carry)

/-- Rotates byte after byte, each with the carry that the one before it has left. The first
operation may differ from the others. -/
def chain (first others : RotateOp) (carry : Bool) : List UInt8 → List UInt8 × Bool
  | [] => ([], carry)
  | v :: vs =>
    let step := rotated first v carry
    let rest := chain others others step.2 vs
    (step.1 :: rest.1, rest.2)

/-- From the lowest byte up. -/
def left (first : RotateOp) (carry : Bool) (bytes : List UInt8) : List UInt8 × Bool :=
  chain first .rl carry bytes

/-- From the highest byte down. The result has its lowest byte first again. -/
def right (first : RotateOp) (carry : Bool) (bytes : List UInt8) : List UInt8 × Bool :=
  let result := chain first .rr carry bytes.reverse
  (result.1.reverse, result.2)

theorem left_cons (first : RotateOp) (carry : Bool) (v : UInt8) (vs : List UInt8) :
    left first carry (v :: vs) =
      ((rotated first v carry).1 :: (left .rl (rotated first v carry).2 vs).1,
        (left .rl (rotated first v carry).2 vs).2) :=
  rfl

theorem right_concat (first : RotateOp) (carry : Bool) (vs : List UInt8) (v : UInt8) :
    right first carry (vs ++ [v]) =
      ((right .rr (rotated first v carry).2 vs).1 ++ [(rotated first v carry).1],
        (right .rr (rotated first v carry).2 vs).2) := by
  unfold right
  rw [List.reverse_append, List.reverse_singleton, List.singleton_append]
  exact Prod.ext List.reverse_cons rfl

theorem length_chain (first others : RotateOp) (carry : Bool) (bytes : List UInt8) :
    (chain first others carry bytes).1.length = bytes.length := by
  induction bytes generalizing first carry with
  | nil => rfl
  | cons v vs ih => exact congrArg Nat.succ (ih others _)

theorem length_right (first : RotateOp) (carry : Bool) (bytes : List UInt8) :
    (right first carry bytes).1.length = bytes.length := by
  unfold right
  rw [List.length_reverse, length_chain, List.length_reverse]

/-! ## One byte -/

theorem negative_eq (v : UInt8) : Alu.negative v = v.toNat.testBit 7 := by
  rw [Alu.negative, bne, Alu.and_mask (k := 7) rfl, Bool.not_not]

theorem odd_eq (v : UInt8) : Alu.odd v = v.toNat.testBit 0 := by
  rw [Alu.odd, bne, Alu.and_mask (k := 0) rfl, Bool.not_not]

theorem toNat_negative (v : UInt8) : (Alu.negative v).toNat = v.toNat / 128 := by
  have hlt := v.toNat_lt
  rw [negative_eq, Nat.toNat_testBit]
  omega

theorem toNat_odd (v : UInt8) : (Alu.odd v).toNat = v.toNat % 2 := by
  rw [odd_eq, Nat.toNat_testBit, pow_zero, Nat.div_one]

/-- What leaves the byte at the top counts 256. -/
theorem rotated_rl (v : UInt8) (carry : Bool) :
    (rotated .rl v carry).1.toNat + 256 * (rotated .rl v carry).2.toNat =
      2 * v.toNat + carry.toNat := by
  have hlt := v.toNat_lt
  have hbyte : (rotated .rl v carry).1.toNat = 2 * (v.toNat % 128) + carry.toNat := by
    have hshift : (v <<< 1).toNat = 2 ^ 1 * (v.toNat % 128) := by
      rw [UInt8.toNat_shiftLeft]
      show v.toNat <<< 1 % 256 = _
      rw [Nat.shiftLeft_eq]
      omega
    have hbit : carry.toNat < 2 ^ 1 := carry.toNat_lt
    show (v <<< 1 ||| Alu.lowBit carry).toNat = _
    rw [UInt8.toNat_or, hshift, Alu.toNat_lowBit, ← Nat.two_pow_add_eq_or_of_lt hbit]
  have hcarry : (rotated .rl v carry).2.toNat = v.toNat / 128 := toNat_negative v
  rw [hbyte, hcarry]
  omega

/-- What enters the byte at the top counts 256, and what leaves it at the bottom counts one. -/
theorem rotated_rr (v : UInt8) (carry : Bool) :
    2 * (rotated .rr v carry).1.toNat + (rotated .rr v carry).2.toNat =
      v.toNat + 256 * carry.toNat := by
  have hlt := v.toNat_lt
  have hbyte : (rotated .rr v carry).1.toNat = 128 * carry.toNat + v.toNat / 2 := by
    have hshift : (v >>> 1).toNat = v.toNat / 2 := by
      rw [UInt8.toNat_shiftRight]
      exact Nat.shiftRight_one v.toNat
    have htop : (Alu.highBit carry).toNat = 2 ^ 7 * carry.toNat := by cases carry <;> rfl
    have hsmall : v.toNat / 2 < 2 ^ 7 := by omega
    show (v >>> 1 ||| Alu.highBit carry).toNat = _
    rw [UInt8.toNat_or, hshift, htop, Nat.or_comm, ← Nat.two_pow_add_eq_or_of_lt hsmall]
  have hcarry : (rotated .rr v carry).2.toNat = v.toNat % 2 := toNat_odd v
  rw [hbyte, hcarry]
  omega

/-- A shift is the rotation with the carry that it shifts in. -/
theorem rotated_sla (v : UInt8) (carry : Bool) : rotated .sla v carry = rotated .rl v false := by
  have hzero : v <<< 1 ||| Alu.lowBit false = v <<< 1 := UInt8.or_zero
  show (v <<< 1, Alu.negative v) = (v <<< 1 ||| Alu.lowBit false, Alu.negative v)
  rw [hzero]

theorem rotated_srl (v : UInt8) (carry : Bool) : rotated .srl v carry = rotated .rr v false := by
  have hzero : v >>> 1 ||| Alu.highBit false = v >>> 1 := UInt8.or_zero
  show (v >>> 1, Alu.odd v) = (v >>> 1 ||| Alu.highBit false, Alu.odd v)
  rw [hzero]

theorem rotated_sra (v : UInt8) (carry : Bool) :
    rotated .sra v carry = rotated .rr v (Alu.negative v) :=
  rfl

/-! ## All bytes -/

/-- Only the first step tells which operation begins a chain. -/
theorem left_of_rotated {first : RotateOp} {carry carry' : Bool} {v : UInt8}
    (h : rotated first v carry = rotated .rl v carry') (vs : List UInt8) :
    left first carry (v :: vs) = left .rl carry' (v :: vs) := by
  rw [left_cons, left_cons, h]

theorem right_of_rotated {first : RotateOp} {carry carry' : Bool} {v : UInt8}
    (h : rotated first v carry = rotated .rr v carry') (vs : List UInt8) :
    right first carry (vs ++ [v]) = right .rr carry' (vs ++ [v]) := by
  rw [right_concat, right_concat, h]

/-- To the left, no bit is lost: the last carry is the bit above all bytes. -/
theorem number_left (carry : Bool) (bytes : List UInt8) :
    number (left .rl carry bytes).1 + 256 ^ bytes.length * (left .rl carry bytes).2.toNat =
      2 * number bytes + carry.toNat := by
  induction bytes generalizing carry with
  | nil => simp [left, chain, number]
  | cons v vs ih =>
      have hstep := rotated_rl v carry
      have hrest := ih (rotated .rl v carry).2
      rw [left_cons, number_cons, number_cons, List.length_cons, pow_succ]
      -- the carry out of the lowest byte is the one into the others
      linear_combination hstep + 256 * hrest

/-- To the right, the first carry is the bit above all bytes, and the last is the one below. -/
theorem number_right (carry : Bool) (bytes : List UInt8) :
    2 * number (right .rr carry bytes).1 + (right .rr carry bytes).2.toNat =
      number bytes + 256 ^ bytes.length * carry.toNat := by
  induction bytes using List.reverseRecOn generalizing carry with
  | nil => simp [right, chain, number]
  | append_singleton vs v ih =>
      have hstep := rotated_rr v carry
      have hrest := ih (rotated .rr v carry).2
      rw [right_concat, number_concat, number_concat, length_right, List.length_append,
        List.length_singleton, pow_succ]
      linear_combination hrest + 256 ^ vs.length * hstep

/-! ## Results -/

/-- The highest bit of a number is that of its highest byte. -/
theorem testBit_number_concat (vs : List UInt8) (v : UInt8) :
    (number (vs ++ [v])).testBit (8 * (vs.length + 1) - 1) = Alu.negative v := by
  have hpow : 256 ^ vs.length = 2 ^ (8 * vs.length) := by
    rw [pow_mul]
    rfl
  have hlow : number vs < 2 ^ (8 * vs.length) := hpow ▸ number_lt vs
  have hplace : ¬ 8 * (vs.length + 1) - 1 < 8 * vs.length := by omega
  have hindex : 8 * (vs.length + 1) - 1 - 8 * vs.length = 7 := by omega
  rw [number_concat, hpow, Nat.add_comm, Nat.testBit_two_pow_mul_add _ hlow, if_neg hplace,
    hindex, negative_eq]

/-- A sum that has left its range once has done so because of the highest bit. -/
theorem carry_eq_testBit {n x r : Nat} {carry last : Bool} (hn : 0 < n) (hx : x < 256 ^ n)
    (hr : r < 256 ^ n) (h : r + 256 ^ n * last.toNat = 2 * x + carry.toNat) :
    last = x.testBit (8 * n - 1) := by
  have hpow : 256 ^ n = 2 ^ (8 * n - 1 + 1) := by
    rw [Nat.sub_add_cancel (by omega), pow_mul]
    rfl
  have hhalf : 2 ^ (8 * n - 1 + 1) = 2 * 2 ^ (8 * n - 1) := pow_succ' 2 (8 * n - 1)
  have hcarry : carry.toNat ≤ 1 := Bool.toNat_le carry
  rw [Alu.testBit_top (hpow ▸ hx)]
  rw [hpow, hhalf] at hx hr h
  cases last with
  | false =>
      rw [Bool.toNat_false] at h
      exact (decide_eq_false (by omega)).symm
  | true =>
      rw [Bool.toNat_true] at h
      exact (decide_eq_true (by omega)).symm

/-- What chains of rotations make of the number `x` of `n` bytes. -/
structure Chains (n x : Nat) (bytes : List UInt8) (carry : Bool) : Prop where
  /-- To the left, the number is doubled, and the carry is its lowest bit. -/
  doubles : BytesOf n ((2 * x + carry.toNat) % 256 ^ n) (left .rl carry bytes).1
  /-- To the right, the number is halved, and the carry is its highest bit. -/
  halves : BytesOf n ((x + carry.toNat * 256 ^ n) / 2) (right .rr carry bytes).1
  leaves_highest : 0 < n → (left .rl carry bytes).2 = x.testBit (8 * n - 1)
  leaves_lowest : 0 < n → (right .rr carry bytes).2.toNat = x % 2
  /-- Where there are no bytes, the carry is all there is. -/
  leaves_carry : n = 0 → (left .rl carry bytes).2 = carry ∧ (right .rr carry bytes).2 = carry
  restores : right .rr (left .rl carry bytes).2 (left .rl carry bytes).1 = (bytes, carry)
  /-- A shift in the place of the first rotation shifts in zero, or the sign. -/
  shifts_left : 0 < n → left .sla carry bytes = left .rl false bytes
  shifts_right : 0 < n → right .srl carry bytes = right .rr false bytes
  shifts_sign : 0 < n → right .sra carry bytes = right .rr (x.testBit (8 * n - 1)) bytes

theorem doubles (carry : Bool) (bytes : List UInt8) :
    BytesOf bytes.length ((2 * number bytes + carry.toNat) % 256 ^ bytes.length)
      (left .rl carry bytes).1 := by
  have hlength : (left .rl carry bytes).1.length = bytes.length := length_chain _ _ _ _
  have hlt := hlength ▸ number_lt (left .rl carry bytes).1
  refine ⟨hlength, ?_⟩
  rw [← number_left, Nat.add_mul_mod_self_left, Nat.mod_eq_of_lt hlt]

theorem halves (carry : Bool) (bytes : List UInt8) :
    BytesOf bytes.length ((number bytes + carry.toNat * 256 ^ bytes.length) / 2)
      (right .rr carry bytes).1 := by
  have hcarry := Bool.toNat_le (right .rr carry bytes).2
  refine ⟨length_right _ _ _, ?_⟩
  rw [Nat.mul_comm carry.toNat, ← number_right]
  omega

/-- Doubled and halved, the number is what it was, and so is the carry. -/
theorem right_left (carry : Bool) (bytes : List UInt8) :
    right .rr (left .rl carry bytes).2 (left .rl carry bytes).1 = (bytes, carry) := by
  have hlength : (left .rl carry bytes).1.length = bytes.length := length_chain _ _ _ _
  have hdouble := number_left carry bytes
  have hhalf := number_right (left .rl carry bytes).2 (left .rl carry bytes).1
  rw [hlength, hdouble] at hhalf
  have hcarry := Bool.toNat_le carry
  have hlast := Bool.toNat_le
    (right .rr (left .rl carry bytes).2 (left .rl carry bytes).1).2
  have hbytes : (right .rr (left .rl carry bytes).2 (left .rl carry bytes).1).1 = bytes := by
    refine BytesOf.unique (n := bytes.length) (x := number bytes) ⟨?_, ?_⟩ ⟨rfl, rfl⟩
    · rw [length_right, hlength]
    · omega
  have hsame : (right .rr (left .rl carry bytes).2 (left .rl carry bytes).1).2 = carry := by
    have hnat : (right .rr (left .rl carry bytes).2 (left .rl carry bytes).1).2.toNat =
        carry.toNat := by
      omega
    cases carry with
    | false => exact Bool.toNat_eq_zero.mp hnat
    | true => exact Bool.toNat_eq_one.mp hnat
  exact Prod.ext hbytes hsame

/-- **Chains of rotations.** Of a number of any length, a chain to the left forms the double and
a chain to the right the half, with the first carry moved in at one end and the last carry moved
out at the other. The second chain undoes the first. A chain that begins with a shift is one
whose first carry is zero, or the sign of the number. -/
theorem rotates_number {n x : Nat} {bytes : List UInt8} (h : BytesOf n x bytes) (carry : Bool) :
    Chains n x bytes carry := by
  obtain ⟨rfl, rfl⟩ := h
  refine ⟨doubles carry bytes, halves carry bytes, ?highest, ?lowest, ?carry,
    right_left carry bytes, ?left, ?right, ?sign⟩
  case highest =>
    intro hn
    have hlt := (doubles carry bytes).length ▸ number_lt (left .rl carry bytes).1
    exact carry_eq_testBit hn (number_lt bytes) hlt (number_left carry bytes)
  case lowest =>
    intro hn
    have hright := number_right carry bytes
    have hlast := Bool.toNat_le (right .rr carry bytes).2
    have heven : 2 ∣ 256 ^ bytes.length * carry.toNat :=
      Dvd.dvd.mul_right (dvd_pow (by decide) (by omega)) _
    omega
  case carry =>
    intro hn
    obtain rfl := List.length_eq_zero_iff.mp hn
    exact ⟨rfl, rfl⟩
  case left =>
    intro hn
    obtain ⟨v, vs, rfl⟩ := List.exists_cons_of_ne_nil (List.ne_nil_of_length_pos hn)
    exact left_of_rotated (rotated_sla v carry) vs
  case right =>
    intro hn
    obtain ⟨vs, v, rfl⟩ := (List.eq_nil_or_concat' bytes).resolve_left
      (List.ne_nil_of_length_pos hn)
    exact right_of_rotated (rotated_srl v carry) vs
  case sign =>
    intro hn
    obtain ⟨vs, v, rfl⟩ := (List.eq_nil_or_concat' bytes).resolve_left
      (List.ne_nil_of_length_pos hn)
    have hsign := testBit_number_concat vs v
    rw [List.length_append, List.length_singleton, hsign]
    exact right_of_rotated (rotated_sra v carry) vs

/-- `0x8001` doubled loses its highest bit, and halved with the carry its lowest. With its sign
shifted in, it stays negative. -/
theorem rotates_number_negative :
    BytesOf 2 0x8001 [0x01, 0x80] ∧ BytesOf 2 0x0003 (left .rl true [0x01, 0x80]).1 ∧
      (left .rl true [0x01, 0x80]).2 = true ∧ BytesOf 2 0xC000 (right .rr true [0x01, 0x80]).1 ∧
      (right .rr true [0x01, 0x80]).2 = true ∧
      right .rr true [0x03, 0x00] = ([0x01, 0x80], true) ∧
      right .sra false [0x01, 0x80] = ([0x00, 0xC0], true) := by
  have hbytes : BytesOf 2 0x8001 [0x01, 0x80] := ⟨rfl, rfl⟩
  have hchains := rotates_number hbytes true
  have hsigned := (rotates_number hbytes false).shifts_sign (by decide)
  have hlast : (left .rl true [0x01, 0x80]).2 = true := hchains.leaves_highest (by decide)
  exact ⟨hbytes, hchains.doubles, hlast, hchains.halves, by decide, hchains.restores,
    hsigned.trans (by decide)⟩

end GoldenTrace.Rotation
