import GoldenTrace.Segments

/-!
# Blanks, words and lines

Command lines and trace texts are read word by word. A blank is a character
with the Unicode property `White_Space`, so a trace that was indented with a
no-break space reads like one indented with tabs.
-/

namespace GoldenTrace.Text

/-- Characters with the Unicode property `White_Space`. -/
def isBlank (c : Char) : Bool :=
  let n := c.toNat
  (9 ≤ n && n ≤ 13) || n == 0x20 || n == 0x85 || n == 0xA0 || n == 0x1680 ||
    (0x2000 ≤ n && n ≤ 0x200A) || n == 0x2028 || n == 0x2029 || n == 0x202F ||
    n == 0x205F || n == 0x3000

/-- The maximal runs of characters that are not blank, in order. -/
def words (cs : List Char) : List (List Char) :=
  (segments isBlank cs).filter (fun w => !w.isEmpty)

/-- A text without the blanks at either end. -/
def trim (cs : List Char) : List Char :=
  ((cs.dropWhile isBlank).reverse.dropWhile isBlank).reverse

/-- The lines of a text, without their line feeds. A text that ends in a line
feed has an empty last line. -/
def lines (cs : List Char) : List (List Char) :=
  segments (· == '\n') cs

/-- ASCII letters in upper case, all other characters as they are. -/
def upper (cs : List Char) : List Char :=
  cs.map Char.toUpper

/-- Equality of two texts that disregards the case of ASCII letters. -/
def sameLetters (a b : List Char) : Bool :=
  upper a == upper b

end GoldenTrace.Text
