import GoldenTrace.Json.Basic
import GoldenTrace.Text.Numeral

/-!
# Writing JSON

Values are written in one of two layouts: compact, without any white space, or
indented by two spaces a level with every item and member on a line of its own.
Empty containers stay on one line in both. Strings escape quotes, backslashes
and control characters and nothing else.
-/

namespace GoldenTrace.Json

inductive Layout where
  | compact
  | indented
  deriving DecidableEq

namespace Layout

/-- The break before an item at nesting level `depth`. -/
def lineBreak : Layout → Nat → List Char
  | compact, _ => []
  | indented, depth => '\n' :: List.replicate (2 * depth) ' '

def colon : Layout → List Char
  | compact => [':']
  | indented => [':', ' ']

end Layout

/-- The lower-case hexadecimal digit of value `n`. -/
def lowerDigit (n : Nat) : Char :=
  (Text.digit n).toLower

/-- A character as it stands inside a string. -/
def escape (c : Char) : List Char :=
  if c == '\x22' then ['\\', '\x22']
  else if c == '\\' then ['\\', '\\']
  else if c == '\x08' then ['\\', 'b']
  else if c == '\x0c' then ['\\', 'f']
  else if c == '\n' then ['\\', 'n']
  else if c == '\r' then ['\\', 'r']
  else if c == '\t' then ['\\', 't']
  else if c.toNat < 0x20 then
    ['\\', 'u', '0', '0', lowerDigit (c.toNat / 16), lowerDigit (c.toNat % 16)]
  else [c]

def quoted (s : String) : List Char :=
  '\x22' :: s.toList.flatMap escape ++ ['\x22']

mutual

/-- The text of a value at nesting level `depth`. The kinds of value that
only reading produces are written as `null`. -/
def write (l : Layout) (depth : Nat) : Json → List Char
  | .null => ['n', 'u', 'l', 'l']
  | .bool true => ['t', 'r', 'u', 'e']
  | .bool false => ['f', 'a', 'l', 's', 'e']
  | .int n => Text.integer n
  | .real literal => literal.toList
  | .str s => quoted s
  | .arr [] => ['[', ']']
  | .arr (v :: vs) =>
    '[' :: l.lineBreak (depth + 1) ++ write l (depth + 1) v ++ writeItems l (depth + 1) vs ++
      l.lineBreak depth ++ [']']
  | .obj [] => ['\x7b', '\x7d']
  | .obj ((k, v) :: ms) =>
    '\x7b' :: l.lineBreak (depth + 1) ++ quoted k ++ l.colon ++ write l (depth + 1) v ++
      writeMembers l (depth + 1) ms ++ l.lineBreak depth ++ ['\x7d']
  | .valueless => ['n', 'u', 'l', 'l']
  | .cut _ _ => ['n', 'u', 'l', 'l']
  | .broken => ['n', 'u', 'l', 'l']

/-- The items of an array after its first. -/
def writeItems (l : Layout) (depth : Nat) : List Json → List Char
  | [] => []
  | v :: vs => ',' :: l.lineBreak depth ++ write l depth v ++ writeItems l depth vs

/-- The members of an object after its first. -/
def writeMembers (l : Layout) (depth : Nat) : List (String × Json) → List Char
  | [] => []
  | (k, v) :: ms =>
    ',' :: l.lineBreak depth ++ quoted k ++ l.colon ++ write l depth v ++ writeMembers l depth ms

end

def render (l : Layout) (v : Json) : String :=
  String.ofList (write l 0 v)

def compact (v : Json) : String :=
  v.render .compact

end GoldenTrace.Json
