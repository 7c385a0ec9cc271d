/-!
# JSON values

Objects keep their members in the order of the text and may name a key twice:
what a repeated key means is for the reader of the object to say.

Three further kinds of value arise only from reading text. `broken` stands where
the text stops being JSON, and is the last thing a value read from such a text
holds. `valueless` is well-formed text without a value, which a reader may pass
over but not use. `cut` is an object that can be read only as far as a place
where a key should stand. With these, a reader that goes through a value in
order meets the faults of the text and of the shape in the order of the text.
-/

namespace GoldenTrace

/-- A JSON value as it was read or is to be written. -/
inductive Json where
  | null
  | bool (b : Bool)
  /-- A number written without fraction and exponent. -/
  | int (n : Int)
  /-- A number written with a fraction or an exponent, and minus zero. -/
  | real (literal : String)
  | str (s : String)
  | arr (items : List Json)
  | obj (members : List (String × Json))
  /-- A number beyond every double, a string with half a surrogate pair, or a
  container nested too deep. -/
  | valueless
  /-- The members of an object before a place that has no key. `whole` tells
  whether the text is JSON there nonetheless: the key is a string with half a
  surrogate pair. -/
  | cut (members : List (String × Json)) (whole : Bool)
  /-- The point where the text stops being JSON. -/
  | broken

namespace Json

def nat (n : Nat) : Json := .int n

/-- The leading members whose keys can be read. -/
def keyed : List (Option String × Json) → List (String × Json)
  | (some k, v) :: ms => (k, v) :: keyed ms
  | _ => []

/-- The object of the given members, some of whose keys may be unreadable.
`whole` tells whether its text was JSON to the end. -/
def object (members : List (Option String × Json)) (whole : Bool) : Json :=
  if members.all (·.1.isSome) then .obj (keyed members) else .cut (keyed members) whole

/-- A value that may be absent, absence being `null`. -/
def ofOption {α : Type} (f : α → Json) : Option α → Json
  | none => .null
  | some a => f a

end Json

end GoldenTrace
