import GoldenTrace.Shell.Script

/-!
# Patterns

A pattern matches a text character by character. A star stands for any run of
characters, a question mark for one, and brackets for one of a set. Quoted
characters stand for themselves.
-/

namespace GoldenTrace.Shell

/-- What one place of a pattern matches. -/
inductive Glob where
  | char (c : Char)
  | one
  | run
  /-- A character in one of the ranges, or in none of them. -/
  | set (negated : Bool) (ranges : List (Char × Char))
  deriving DecidableEq

abbrev Pattern := List Glob

namespace Pattern

/-- The ranges of a bracket's inside. -/
def ranges : List Char → List (Char × Char)
  | a :: '-' :: b :: cs => (a, b) :: ranges cs
  | c :: cs => (c, c) :: ranges cs
  | [] => []

/-- The set that a bracket's inside stands for. -/
def bracket : List Char → Glob
  | '!' :: cs => .set true (ranges cs)
  | cs => .set false (ranges cs)

/-- Reads unquoted text. A bracket that is not closed stands for itself. -/
def ofText : Nat → List Char → Pattern
  | 0, _ => []
  | _ + 1, [] => []
  | n + 1, '*' :: cs => .run :: ofText n cs
  | n + 1, '?' :: cs => .one :: ofText n cs
  | n + 1, '[' :: c :: cs =>
    let inside := c :: cs.takeWhile (· != ']')
    match (c :: cs).drop inside.length with
    | [] => .char '[' :: ofText n (c :: cs)
    | _ :: rest => bracket inside :: ofText n rest
  | n + 1, c :: cs => .char c :: ofText n cs

/-- The pattern of a text that is quoted or not. -/
def ofPart (part : List Char × Bool) : Pattern :=
  if part.2 then part.1.map .char else ofText (part.1.length + 1) part.1

/-- The pattern of the parts of a word. -/
def ofParts (parts : List (List Char × Bool)) : Pattern :=
  parts.flatMap ofPart

/-- Whether one place of a pattern that is no star matches a character. -/
def accepts (g : Glob) (c : Char) : Bool :=
  match g with
  | .char x => x == c
  | .one => true
  | .run => false
  | .set negated rs => negated != rs.any fun r => r.1 ≤ c && c ≤ r.2

def matchesAll : Pattern → List Char → Bool
  | [], [] => true
  | [], _ :: _ => false
  | .run :: ps, [] => matchesAll ps []
  | .run :: ps, c :: cs => matchesAll ps (c :: cs) || matchesAll (.run :: ps) cs
  | p :: ps, c :: cs => accepts p c && matchesAll ps cs
  | _ :: _, [] => false
termination_by ps cs => ps.length + cs.length

/-- The lengths of the leading parts of a text that match, from the shortest. -/
def leading (p : Pattern) (cs : List Char) : List Nat :=
  (List.range (cs.length + 1)).filter fun k => matchesAll p (cs.take k)

/-- The text without its shortest or longest leading part that matches. -/
def dropLeading (p : Pattern) (longest : Bool) (cs : List Char) : List Char :=
  let lengths := leading p cs
  match if longest then lengths.getLast? else lengths.head? with
  | some k => cs.drop k
  | none => cs

/-- The lengths before the trailing parts of a text that match, from the longest
part. -/
def trailing (p : Pattern) (cs : List Char) : List Nat :=
  (List.range (cs.length + 1)).filter fun k => matchesAll p (cs.drop k)

/-- The text without its shortest or longest trailing part that matches. -/
def dropTrailing (p : Pattern) (longest : Bool) (cs : List Char) : List Char :=
  let lengths := trailing p cs
  match if longest then lengths.head? else lengths.getLast? with
  | some k => cs.take k
  | none => cs

end Pattern

end GoldenTrace.Shell
