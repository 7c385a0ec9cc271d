/-!
# Numerals

Numbers are written in base ten or sixteen, hexadecimal digits in upper case
and padded with zeros on the left to a least width. They are read back in
either case of letters, after an optional plus sign.
-/

namespace GoldenTrace.Text

/-- The digit of value `n`, upper case beyond nine. -/
def digit (n : Nat) : Char :=
  if n < 10 then Char.ofNat (48 + n) else Char.ofNat (55 + n)

/-- The value of a digit of either case. -/
def digitValue? (c : Char) : Option Nat :=
  if '0' ≤ c ∧ c ≤ '9' then some (c.toNat - 48)
  else if 'A' ≤ c ∧ c ≤ 'Z' then some (c.toNat - 55)
  else if 'a' ≤ c ∧ c ≤ 'z' then some (c.toNat - 87)
  else none

/-- The digits of `n` in base `b`, the most significant first; one digit for
zero. -/
def digits (b n : Nat) : List Char :=
  if _h : b < 2 ∨ n < b then [digit n]
  else digits b (n / b) ++ [digit (n % b)]
termination_by n
decreasing_by exact Nat.div_lt_self (by omega) (by omega)

def decimal (n : Nat) : List Char :=
  digits 10 n

/-- The decimal numeral of an integer, after a minus sign if it is negative. -/
def integer (n : Int) : List Char :=
  if n < 0 then '-' :: decimal n.natAbs else decimal n.natAbs

/-- The hexadecimal numeral of `n` with at least `width` digits. -/
def hex (width n : Nat) : List Char :=
  let ds := digits 16 n
  List.replicate (width - ds.length) '0' ++ ds

/-- A hexadecimal numeral after `0x`. -/
def hexLiteral (width n : Nat) : String :=
  String.ofList ('0' :: 'x' :: hex width n)

/-- The value of a run of digits in base `b`, continuing from `acc`. -/
def accumulate (b : Nat) : Nat → List Char → Option Nat
  | acc, [] => some acc
  | acc, c :: cs =>
    match digitValue? c with
    | some d => if d < b then accumulate b (acc * b + d) cs else none
    | none => none

/-- Reads a nonempty run of digits in base `b`. -/
def readDigits (b : Nat) : List Char → Option Nat
  | [] => none
  | cs => accumulate b 0 cs

/-- Reads a numeral in base `b` that may begin with a plus sign. -/
def readNumeral (b : Nat) : List Char → Option Nat
  | '+' :: cs => readDigits b cs
  | cs => readDigits b cs

/-- A text without a leading `0x` or `0X`, if it has one. -/
def afterHexMark : List Char → Option (List Char)
  | '0' :: 'x' :: cs => some cs
  | '0' :: 'X' :: cs => some cs
  | _ => none

end GoldenTrace.Text
