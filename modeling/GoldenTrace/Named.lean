import GoldenTrace.Json.Reader
import GoldenTrace.Text.Blank

/-!
# Named alternatives

Registers, flags, operations and presets are finite lists of alternatives, each
with a name of its own. The name is what files and traces hold.
-/

namespace GoldenTrace

/-- A type whose values are listed and have names. -/
class Named (α : Type) where
  all : List α
  name : α → String
  /-- Every alternative is listed, and is the first of its name. -/
  find?_name : ∀ a, (all.find? fun b => name b == name a) = some a := by
    intro a
    cases a <;> rfl

namespace Named

variable {α : Type} [Named α]

/-- The alternative with exactly this name. -/
def find? (s : String) : Option α :=
  (all : List α).find? fun a => name a == s

/-- The alternative whose name this is up to the case of letters. -/
def findAnyCase? (s : String) : Option α :=
  (all : List α).find? fun a => Text.sameLetters (name a).toList s.toList

/-- The name with its first letter in upper case, as diagnostics show it. -/
def label (a : α) : String :=
  match (name a).toList with
  | [] => ""
  | c :: cs => String.ofList (c.toUpper :: cs)

def toJson (a : α) : Json :=
  .str (name a)

def ofJson (origin : Json.Origin) : Json → Json.Read α :=
  Json.asName origin find?

end Named

end GoldenTrace
