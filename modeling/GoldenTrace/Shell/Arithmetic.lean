import GoldenTrace.Text.Numeral

/-!
# Arithmetic of scripts

Expressions over integers of 64 bits, with the operators and precedences of C
but without assignments. A name stands for the number that its variable holds.
-/

namespace GoldenTrace.Shell.Arithmetic

/-- An integer wrapped to 64 bits. -/
def wrap (n : Int) : Int :=
  n.bmod 0x10000000000000000

def ofBool (b : Bool) : Int :=
  if b then 1 else 0

/-- A natural number in base sixteen after `0x`, in base eight after a zero, and
otherwise in base ten. -/
def literal? (cs : List Char) : Option Nat :=
  match Text.afterHexMark cs with
  | some ds => Text.readDigits 16 ds
  | none => Text.readDigits (if cs.head? = some '0' then 8 else 10) cs

/-- The number a variable holds, zero if it is empty. -/
def ofVariable (text : String) : Option Int :=
  match text.toList with
  | [] => some 0
  | '-' :: cs => (fun n => -(n : Int)) <$> literal? cs
  | cs => (fun n => (n : Int)) <$> literal? cs

/-- The operators between two operands, each before those it begins with, with
their precedence. -/
def operators : List (String × Nat) :=
  [("||", 1), ("&&", 2), ("==", 6), ("!=", 6), ("<=", 7), (">=", 7), ("<<", 8), (">>", 8),
    ("|", 3), ("^", 4), ("&", 5), ("<", 7), (">", 7), ("+", 9), ("-", 9), ("*", 10), ("/", 10),
    ("%", 10)]

/-- The result of an operator; none for a division by zero. -/
def apply (op : String) (a b : Int) : Option Int :=
  match op with
  | "||" => some (ofBool (a != 0 || b != 0))
  | "&&" => some (ofBool (a != 0 && b != 0))
  | "|" => some (bitwise (· ||| ·))
  | "^" => some (bitwise (· ^^^ ·))
  | "&" => some (bitwise (· &&& ·))
  | "==" => some (ofBool (a == b))
  | "!=" => some (ofBool (a != b))
  | "<" => some (ofBool (a < b))
  | ">" => some (ofBool (a > b))
  | "<=" => some (ofBool (a ≤ b))
  | ">=" => some (ofBool (a ≥ b))
  | "<<" => some (wrap (a * (1 <<< (b % 64).toNat : Nat)))
  | ">>" => some (a / (1 <<< (b % 64).toNat : Nat))
  | "+" => some (wrap (a + b))
  | "-" => some (wrap (a - b))
  | "*" => some (wrap (a * b))
  | "/" => if b = 0 then none else some (wrap (a.tdiv b))
  | "%" => if b = 0 then none else some (a.tmod b)
  | _ => none
where
  bitwise (f : Nat → Nat → Nat) : Int :=
    wrap (f (a % 0x10000000000000000).toNat (b % 0x10000000000000000).toNat)

def isSpace (c : Char) : Bool :=
  c == ' ' || c == '\t' || c == '\n'

def inWord (c : Char) : Bool :=
  c.isAlphanum || c == '_'

/-- The operator that a text begins with. -/
def operator? (cs : List Char) : Option (String × Nat) :=
  operators.find? fun o => o.1.toList.isPrefixOf cs

mutual

/-- Reads an operand and what operators of at least the given precedence join to
it. -/
def expression : Nat → (String → String) → Nat → List Char → Option (Int × List Char)
  | 0, _, _, _ => none
  | n + 1, vars, least, cs => do
    let (a, rest) ← operand n vars (cs.dropWhile isSpace)
    joined n vars least a (rest.dropWhile isSpace)

/-- What is joined to an operand. -/
def joined : Nat → (String → String) → Nat → Int → List Char → Option (Int × List Char)
  | 0, _, _, _, _ => none
  | n + 1, vars, least, a, cs =>
    match operator? cs with
    | none => some (a, cs)
    | some (op, precedence) =>
      if precedence < least then some (a, cs)
      else do
        let (b, rest) ← expression n vars (precedence + 1) (cs.drop op.length)
        joined n vars least (← apply op a b) rest

/-- One operand. -/
def operand : Nat → (String → String) → List Char → Option (Int × List Char)
  | 0, _, _ => none
  | _ + 1, _, [] => none
  | n + 1, vars, '(' :: cs => do
    let (a, rest) ← expression n vars 0 cs
    match rest.dropWhile isSpace with
    | ')' :: rest => return (a, rest)
    | _ => none
  | n + 1, vars, '-' :: cs => do
    let (a, rest) ← operand n vars (cs.dropWhile isSpace)
    return (wrap (-a), rest)
  | n + 1, vars, '+' :: cs => operand n vars (cs.dropWhile isSpace)
  | n + 1, vars, '!' :: cs => do
    let (a, rest) ← operand n vars (cs.dropWhile isSpace)
    return (ofBool (a == 0), rest)
  | n + 1, vars, '~' :: cs => do
    let (a, rest) ← operand n vars (cs.dropWhile isSpace)
    return (-a - 1, rest)
  | _ + 1, vars, c :: cs =>
    let text := (c :: cs).takeWhile inWord
    let rest := (c :: cs).dropWhile inWord
    if text.isEmpty then none
    else if c.isDigit then (fun n => ((n : Int), rest)) <$> literal? text
    else (fun n => (n, rest)) <$> ofVariable (vars (String.ofList text))

end

/-- The value of an expression; an empty one is zero. -/
def evaluate (vars : String → String) (text : List Char) : Option Int :=
  if text.all isSpace then some 0
  else
    match expression (3 * text.length + 3) vars 0 text with
    | some (a, rest) => if rest.all isSpace then some a else none
    | none => none

end GoldenTrace.Shell.Arithmetic
