import GoldenTrace.Text.Numeral
import Mathlib.Data.List.Basic
import Mathlib.Algebra.Group.Nat.Defs

/-!
# Numerals read back

Writing a number in base ten or sixteen and reading it gives the number, also
with zeros before it. A numeral consists of digits of its base, and that of a
positive number does not begin with zero.
-/

namespace GoldenTrace.Text

/-! ## Digits -/

theorem digitValue?_digit {n : Nat} (h : n < 16) : digitValue? (digit n) = some n := by
  have all : ∀ n < 16, digitValue? (digit n) = some n := by decide
  exact all n h

theorem isDigit_digit {n : Nat} (h : n < 10) : (digit n).isDigit = true := by
  have all : ∀ n < 10, (digit n).isDigit = true := by decide
  exact all n h

theorem digits_ne_nil (b n : Nat) : digits b n ≠ [] := by
  rw [digits]
  split
  · exact List.cons_ne_nil _ _
  · exact List.append_ne_nil_of_right_ne_nil _ (List.cons_ne_nil _ _)

/-- A numeral consists of digits of its base. -/
theorem mem_digits {b n : Nat} (hb : 2 ≤ b) {c : Char} (h : c ∈ digits b n) :
    ∃ k < b, c = digit k := by
  fun_induction digits b n with
  | case1 n hn =>
      have hlt : n < b := hn.resolve_left (by omega)
      exact ⟨n, hlt, List.mem_singleton.mp h⟩
  | case2 n hn ih =>
      rcases List.mem_append.mp h with h | h
      · exact ih h
      · exact ⟨n % b, Nat.mod_lt _ (by omega), List.mem_singleton.mp h⟩

/-- The numeral of a positive number does not begin with zero. -/
theorem digits_eq_cons {b n : Nat} (hb : 2 ≤ b) (hn : 0 < n) :
    ∃ k ds, 0 < k ∧ k < b ∧ digits b n = digit k :: ds := by
  fun_induction digits b n with
  | case1 n h => exact ⟨n, [], hn, h.resolve_left (by omega), rfl⟩
  | case2 n h ih =>
      have hpos : 0 < n / b := Nat.div_pos (by omega) (by omega)
      obtain ⟨k, ds, hk, hkb, heq⟩ := ih hpos
      exact ⟨k, ds ++ [digit (n % b)], hk, hkb, by rw [heq, List.cons_append]⟩

theorem digits_zero (b : Nat) : digits b 0 = ['0'] := by
  rw [digits, dif_pos (by omega)]
  rfl

/-! ## Reading -/

theorem accumulate_append (b acc : Nat) (xs ys : List Char) :
    accumulate b acc (xs ++ ys) = (accumulate b acc xs).bind fun n => accumulate b n ys := by
  induction xs generalizing acc with
  | nil => rfl
  | cons c xs ih =>
      rw [List.cons_append, accumulate, accumulate]
      cases digitValue? c with
      | none => rfl
      | some d =>
          simp only
          split
          · exact ih _
          · rfl

theorem accumulate_digit {b k : Nat} (hb : b ≤ 16) (hk : k < b) (acc : Nat) (cs : List Char) :
    accumulate b acc (digit k :: cs) = accumulate b (acc * b + k) cs := by
  rw [accumulate, digitValue?_digit (by omega)]
  simp only [if_pos hk]

/-- A numeral continues a value by as many places as it has digits. -/
theorem accumulate_digits {b : Nat} (hb : 2 ≤ b) (hb' : b ≤ 16) (acc n : Nat) :
    accumulate b acc (digits b n) = some (acc * b ^ (digits b n).length + n) := by
  fun_induction digits b n with
  | case1 n h =>
      rw [accumulate_digit hb' (h.resolve_left (by omega))]
      simp [accumulate]
  | case2 n h ih =>
      have hmod : n % b < b := Nat.mod_lt _ (by omega)
      rw [accumulate_append, ih, Option.bind_some, accumulate_digit hb' hmod, accumulate]
      congr 1
      rw [List.length_append, List.length_singleton, Nat.pow_succ, Nat.add_mul, Nat.mul_assoc,
        Nat.add_assoc, Nat.mul_comm (n / b) b, Nat.div_add_mod]

theorem readDigits_of_ne_nil {b : Nat} {cs : List Char} (h : cs ≠ []) :
    readDigits b cs = accumulate b 0 cs := by
  cases cs with
  | nil => exact absurd rfl h
  | cons c cs => rfl

theorem readDigits_digits {b : Nat} (hb : 2 ≤ b) (hb' : b ≤ 16) (n : Nat) :
    readDigits b (digits b n) = some n := by
  rw [readDigits_of_ne_nil (digits_ne_nil b n), accumulate_digits hb hb', Nat.zero_mul,
    Nat.zero_add]

theorem accumulate_zeros {b : Nat} (hb : 2 ≤ b) (hb' : b ≤ 16) (k : Nat) (cs : List Char) :
    accumulate b 0 (List.replicate k '0' ++ cs) = accumulate b 0 cs := by
  induction k with
  | zero => rfl
  | succ k ih =>
      have hzero : '0' = digit 0 := rfl
      rw [List.replicate_succ, List.cons_append, hzero, accumulate_digit hb' (by omega),
        Nat.zero_mul, Nat.zero_add, ← hzero]
      exact ih

theorem hex_ne_nil (width n : Nat) : hex width n ≠ [] :=
  List.append_ne_nil_of_right_ne_nil _ (digits_ne_nil 16 n)

theorem mem_hex {width n : Nat} {c : Char} (h : c ∈ hex width n) : ∃ k < 16, c = digit k := by
  rcases List.mem_append.mp h with h | h
  · exact ⟨0, by omega, List.eq_of_mem_replicate h⟩
  · exact mem_digits (by omega) h

/-- A hexadecimal numeral reads back, however wide it is. -/
theorem readDigits_hex (width n : Nat) : readDigits 16 (hex width n) = some n := by
  rw [readDigits_of_ne_nil (hex_ne_nil width n), hex, accumulate_zeros (by omega) (by omega),
    ← readDigits_of_ne_nil (digits_ne_nil 16 n), readDigits_digits (by omega) (by omega)]

theorem readNumeral_hex (width n : Nat) : readNumeral 16 (hex width n) = some n := by
  have hplus : ∀ cs, hex width n ≠ '+' :: cs := by
    intro cs h
    have hmem : '+' ∈ hex width n := h ▸ List.mem_cons_self
    obtain ⟨k, hk, heq⟩ := mem_hex hmem
    have all : ∀ k < 16, '+' ≠ digit k := by decide
    exact all k hk heq
  rw [readNumeral.eq_def]
  split
  case h_1 cs h => exact absurd h (hplus cs)
  case h_2 => exact readDigits_hex width n

/-- A number below the `k`-th power of the base has at most `k` digits. -/
theorem length_digits_le {b n k : Nat} (hb : 2 ≤ b) (hk : 0 < k) (h : n < b ^ k) :
    (digits b n).length ≤ k := by
  fun_induction digits b n generalizing k with
  | case1 n hn => exact hk
  | case2 n hn ih =>
      obtain ⟨k, rfl⟩ : ∃ j, k = j + 1 := ⟨k - 1, by omega⟩
      have hlt : n / b < b ^ k := by
        rw [Nat.div_lt_iff_lt_mul (by omega), ← Nat.pow_succ]
        exact h
      have hpos : 0 < k := by
        -- a number below the base itself is one digit
        rcases Nat.eq_zero_or_pos k with rfl | hpos
        · rw [Nat.zero_add, Nat.pow_one] at h
          omega
        · exact hpos
      rw [List.length_append, List.length_singleton]
      have hle := ih hpos hlt
      omega

/-- Padding fills a numeral up to its width, which it does not go beyond. -/
theorem length_hex {width n : Nat} (hwidth : 0 < width) (h : n < 16 ^ width) :
    (hex width n).length = width := by
  have hle := length_digits_le (by omega) hwidth h
  rw [hex, List.length_append, List.length_replicate]
  omega

/-- Different numbers have different hexadecimal numerals, whatever the widths. -/
theorem hex_injective {w w' n n' : Nat} (h : hex w n = hex w' n') : n = n' := by
  have hread := readDigits_hex w n
  rw [h, readDigits_hex] at hread
  exact (Option.some.inj hread).symm

end GoldenTrace.Text
