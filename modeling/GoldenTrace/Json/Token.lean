import GoldenTrace.Json.Basic
import GoldenTrace.Json.Magnitude

/-!
# JSON tokens

A JSON text is first cut into punctuation, strings and plain values. White
space between tokens is dropped, so the compact and the indented form of a
value have the same tokens. A text that is no sequence of tokens ends in a
`flaw`, and nothing after it is looked at.
-/

namespace GoldenTrace.Json

inductive Token where
  | openObject
  | closeObject
  | openArray
  | closeArray
  | comma
  | colon
  | str (s : String)
  /-- A string with half a surrogate pair. -/
  | unpaired
  /-- A value that is not a string and holds no other value. -/
  | plain (v : Json)
  | flaw

namespace Token

/-- The four characters that may stand between tokens. -/
def isSpace (c : Char) : Bool :=
  c == ' ' || c == '\n' || c == '\t' || c == '\r'

/-- The punctuation a character is, if it is any. -/
def punctuation? : Char → Option Token
  | '\x7b' => some openObject
  | '\x7d' => some closeObject
  | '[' => some openArray
  | ']' => some closeArray
  | ',' => some comma
  | ':' => some colon
  | _ => none

/-- The character a backslash and one letter stand for. -/
def unescape? : Char → Option Char
  | '\x22' => some '\x22'
  | '\\' => some '\\'
  | '/' => some '/'
  | 'b' => some '\x08'
  | 'f' => some '\x0c'
  | 'n' => some '\n'
  | 'r' => some '\r'
  | 't' => some '\t'
  | _ => none

/-- The sixteen bits that four hexadecimal digits write. -/
def unit? (a b c d : Char) : Option Nat :=
  Text.readDigits 16 [a, b, c, d]

/-- The character of a code point written in one or two units, or none for a
unit that is half of a pair. -/
def unitChar? (u : Nat) : Option Char :=
  if h : u.isValidChar then some (Char.ofNatAux u h) else none

/-- The character of two units, if they are the high and the low half of a
surrogate pair. -/
def pairChar? (u v : Nat) : Option Char :=
  if 0xD800 ≤ u ∧ u < 0xDC00 ∧ 0xDC00 ≤ v ∧ v < 0xE000 then
    some (Char.ofNat (0x10000 + (u - 0xD800) * 0x400 + (v - 0xDC00)))
  else none

/-- The rest of a string with one more character in front. -/
def prepend (c : Option Char) :
    Option (Option (List Char)) × List Char → Option (Option (List Char)) × List Char
  | (body, rest) =>
    (body.map fun s => match c, s with
      | some c, some s => some (c :: s)
      | _, _ => none, rest)

/-- Reads a string whose opening quote has been read. The result is none for a
text that is no string, `some none` for a string with half a surrogate pair,
and otherwise its characters; with it comes the text after the closing quote. -/
def scanString : List Char → Option (Option (List Char)) × List Char
  | [] => (none, [])
  | '\x22' :: r => (some (some []), r)
  | '\\' :: 'u' :: a :: b :: c :: d :: '\\' :: 'u' :: e :: f :: g :: h :: r =>
    match unit? a b c d with
    | none => (none, [])
    | some u =>
      match unitChar? u with
      | some x => prepend (some x) (scanString ('\\' :: 'u' :: e :: f :: g :: h :: r))
      | none =>
        match (unit? e f g h).bind (pairChar? u) with
        | some x => prepend (some x) (scanString r)
        | none => prepend none (scanString ('\\' :: 'u' :: e :: f :: g :: h :: r))
  | '\\' :: 'u' :: a :: b :: c :: d :: r =>
    match unit? a b c d with
    | none => (none, [])
    | some u => prepend (unitChar? u) (scanString r)
  | '\\' :: c :: r =>
    match unescape? c with
    | some x => prepend (some x) (scanString r)
    | none => (none, [])
  | c :: r =>
    if c.toNat < 0x20 || c == '\\' then (none, [])
    else prepend (some c) (scanString r)

theorem prepend_snd (c : Option Char) (p : Option (Option (List Char)) × List Char) :
    (prepend c p).2 = p.2 := rfl

theorem length_scanString_le (cs : List Char) : (scanString cs).2.length ≤ cs.length := by
  fun_induction scanString cs <;> simp_all [prepend_snd] <;> omega

/-- The digits after a decimal point, if the text goes on with one. -/
def scanFraction : List Char → Option (List Char × List Char)
  | '.' :: r =>
    if (r.takeWhile Char.isDigit).isEmpty then none
    else some (r.takeWhile Char.isDigit, r.dropWhile Char.isDigit)
  | r => some ([], r)

/-- The digits of an exponent, after its sign. -/
def scanExponentDigits (negative : Bool) (r : List Char) : Option (Option Int × List Char) :=
  match Text.readDigits 10 (r.takeWhile Char.isDigit) with
  | none => none
  | some n => some (some (if negative then -(n : Int) else n), r.dropWhile Char.isDigit)

/-- The exponent, if the text goes on with one. -/
def scanExponent : List Char → Option (Option Int × List Char)
  | c :: r =>
    if c == 'e' || c == 'E' then
      match r with
      | '-' :: r => scanExponentDigits true r
      | '+' :: r => scanExponentDigits false r
      | r => scanExponentDigits false r
    else some (none, c :: r)
  | [] => some (none, [])

/-- The value of a number with the given parts. -/
def number (negative : Bool) (whole fraction : List Char) (exponent : Option Int) : Json :=
  let m := (Text.readDigits 10 (whole ++ fraction)).getD 0
  if beyondDouble whole fraction (exponent.getD 0) then .valueless
  else if fraction.isEmpty && exponent.isNone && !(negative && m == 0) then
    .int (if negative then -(m : Int) else m)
  else
    .real (String.ofList ((if negative then ['-'] else []) ++ whole ++
      (if fraction.isEmpty then [] else '.' :: fraction) ++
      (match exponent with
        | none => []
        | some e => (if e < 0 then ['e', '-'] else ['e']) ++ Text.decimal e.natAbs)))

/-- Reads the digits of a number, after its sign. A whole part of more than one
digit does not begin with zero. -/
def scanUnsigned (negative : Bool) (cs : List Char) : Token × List Char :=
  let whole := cs.takeWhile Char.isDigit
  if whole.isEmpty || (whole.head? == some '0' && whole.length > 1) then (flaw, [])
  else
    match scanFraction (cs.dropWhile Char.isDigit) with
    | none => (flaw, [])
    | some (fraction, r) =>
      match scanExponent r with
      | none => (flaw, [])
      | some (exponent, r) => (plain (number negative whole fraction exponent), r)

/-- Reads the token that begins with the character `c`, which is no space. -/
def scan (c : Char) (cs : List Char) : Token × List Char :=
  match punctuation? c with
  | some t => (t, cs)
  | none =>
    if c == '\x22' then
      match scanString cs with
      | (none, _) => (flaw, [])
      | (some none, r) => (unpaired, r)
      | (some (some s), r) => (str (String.ofList s), r)
    else if c == '-' then scanUnsigned true cs
    else if c.isDigit then scanUnsigned false (c :: cs)
    else
      match c, cs with
      | 'n', 'u' :: 'l' :: 'l' :: r => (plain .null, r)
      | 't', 'r' :: 'u' :: 'e' :: r => (plain (.bool true), r)
      | 'f', 'a' :: 'l' :: 's' :: 'e' :: r => (plain (.bool false), r)
      | _, _ => (flaw, [])

theorem length_dropWhile_le {α : Type} (p : α → Bool) (l : List α) :
    (l.dropWhile p).length ≤ l.length :=
  (List.dropWhile_sublist p).length_le

theorem length_scanFraction_le {cs ds r : List Char} (h : scanFraction cs = some (ds, r)) :
    r.length ≤ cs.length := by
  unfold scanFraction at h
  split at h
  · rename_i r'
    split at h
    · simp at h
    · obtain ⟨-, rfl⟩ := by simpa using h
      have := length_dropWhile_le Char.isDigit r'
      simp only [List.length_cons]
      omega
  · obtain ⟨-, rfl⟩ := by simpa using h
    exact Nat.le_refl _

theorem length_scanExponentDigits_le {neg : Bool} {cs r : List Char} {e : Option Int}
    (h : scanExponentDigits neg cs = some (e, r)) : r.length ≤ cs.length := by
  unfold scanExponentDigits at h
  split at h
  · simp at h
  · obtain ⟨-, rfl⟩ := by simpa using h
    exact length_dropWhile_le _ _

theorem length_scanExponent_le {cs r : List Char} {e : Option Int}
    (h : scanExponent cs = some (e, r)) : r.length ≤ cs.length := by
  unfold scanExponent at h
  split at h
  · split at h
    · split at h <;> have := length_scanExponentDigits_le h <;> simp only [List.length_cons] <;> omega
    · obtain ⟨-, rfl⟩ := by simpa using h
      exact Nat.le_refl _
  · obtain ⟨-, rfl⟩ := by simpa using h
    exact Nat.le_refl _

theorem length_scanUnsigned_le (neg : Bool) {c : Char} (hc : c.isDigit = true) (cs : List Char) :
    (scanUnsigned neg (c :: cs)).2.length ≤ cs.length := by
  unfold scanUnsigned
  simp only
  split
  · simp
  · split
    · simp
    · rename_i h
      split
      · simp
      · rename_i h'
        have h1 := length_scanFraction_le h
        have h2 := length_scanExponent_le h'
        have h3 := length_dropWhile_le Char.isDigit cs
        simp only [List.dropWhile_cons, hc, if_true] at h1
        simp only
        omega

theorem length_scanUnsigned_le_self (neg : Bool) (cs : List Char) :
    (scanUnsigned neg cs).2.length ≤ cs.length := by
  cases cs with
  | nil => simp [scanUnsigned]
  | cons c cs =>
    by_cases hc : c.isDigit = true
    · have := length_scanUnsigned_le neg hc cs
      simp only [List.length_cons]
      omega
    · simp [scanUnsigned, hc]

/-- A token takes at least its first character. -/
theorem length_scan_le (c : Char) (cs : List Char) : (scan c cs).2.length ≤ cs.length := by
  unfold scan
  split
  · exact Nat.le_refl _
  · split
    · have h := length_scanString_le cs
      split <;> simp_all
    · split
      · exact length_scanUnsigned_le_self true cs
      · split
        · exact length_scanUnsigned_le false (by assumption) cs
        · split <;> simp <;> omega

/-- The tokens of a text after those already found, which are held in reverse. -/
def lexOnto (done : List Token) : List Char → List Token
  | [] => done.reverse
  | c :: cs =>
    if isSpace c then lexOnto done cs
    else
      match scan c cs, length_scan_le c cs with
      | (flaw, _), _ => (flaw :: done).reverse
      | (t, r), _ => lexOnto (t :: done) r
termination_by cs => cs.length
decreasing_by
  · simp
  · simp only [List.length_cons]; simp only at *; omega

def lex (cs : List Char) : List Token :=
  lexOnto [] cs

end Token

end GoldenTrace.Json
