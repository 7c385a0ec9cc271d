import GoldenTrace.Text.Numeral

/-!
# Magnitudes of numbers

Numbers are measured as doubles, and one that is too large for a double has no
value. The measure takes two roundings. A number is its leading digits, as many
as 64 bits hold, times a power of ten; both factors are rounded to doubles, and
so is their product. Close to the largest double the measure may therefore be
infinite where the number itself is not, and the other way round.
-/

namespace GoldenTrace.Json

/-- The least number that takes more than 64 bits. -/
def significandBound : Nat := 0x10000000000000000

/-- Continues a significand by the digits that still fit. The digits after them
come with it. -/
def absorb (significand : Nat) : List Char → Nat × List Char
  | [] => (significand, [])
  | c :: cs =>
    let next := significand * 10 + (Text.digitValue? c).getD 0
    if next < significandBound then absorb next cs else (significand, c :: cs)

/-- The significand and the power of ten of a number with the given digits and
exponent. Digits that do not fit count as zeros before the decimal point and
not at all after it. -/
def scientific (whole fraction : List Char) (exponent : Int) : Nat × Int :=
  let (leading, dropped) := absorb 0 whole
  let (significand, ignored) := absorb leading fraction
  (significand, exponent + dropped.length - (fraction.length - ignored.length : Nat))

/-- The double nearest to a natural number, in a tie the one with the even
significand. A double has 53 bits. -/
def nearestDouble (n : Nat) : Nat :=
  let unit := 1 <<< (n.log2 - 52)
  let below := n / unit
  let rest := n % unit
  if unit < 2 * rest ∨ (unit = 2 * rest ∧ below % 2 = 1) then (below + 1) * unit
  else below * unit

/-- A number of at most 53 bits is a double. -/
theorem nearestDouble_eq_self {n : Nat} (h : n < 0x20000000000000) : nearestDouble n = n := by
  have hlog : n.log2 - 52 = 0 := by
    by_cases hn : n = 0
    · simp [hn]
    · have hbits : n.log2 < 53 := (Nat.log2_lt hn).mpr h
      omega
  simp [nearestDouble, hlog, Nat.mod_one]

/-- The least number that rounds to no finite double. -/
def doubleBound : Nat := 1 <<< 1024 - 1 <<< 970

/-- Whether the product of a significand and a power of ten is infinite as a
double. The largest power of ten among the doubles is the 308th. -/
def overflows (significand : Nat) (power : Int) : Bool :=
  if significand = 0 ∨ power < 0 then false
  else if 308 < power then true
  else doubleBound ≤ nearestDouble significand * nearestDouble (Nat.pow 10 power.toNat)

/-- Whether a number with the given digits and exponent is beyond all doubles. -/
def beyondDouble (whole fraction : List Char) (exponent : Int) : Bool :=
  let (significand, power) := scientific whole fraction exponent
  overflows significand power

end GoldenTrace.Json
