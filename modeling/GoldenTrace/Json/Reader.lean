import GoldenTrace.Json.Document
import GoldenTrace.Text.Utf8

/-!
# Reading JSON values

A reader takes a value and gives what it stands for or the first fault met on
the way. Two faults are told apart: the text is no JSON at the point where the
reader stands, or it is JSON of another shape than the reader asks for.

Objects are read member by member. A known key may come anywhere but only
once; a member with any other key is passed over. An array may stand for an
object: its items are then the values of the known keys in their order.

Alternatives are written as a string, or as an object with the alternative's
name as its only key. Where such a value is read as the text goes by, anything
that begins with neither a quote nor a brace is a fault of the text. Where the
value was held back until its meaning was known, the text has been seen to be
JSON and the same value is of the wrong shape.
-/

namespace GoldenTrace.Json

inductive Fault where
  /-- The text is not JSON here. -/
  | text
  /-- The value is not what is asked for. -/
  | shape
  deriving DecidableEq

/-- Whether a value is read as its text goes by or was held back first. -/
inductive Origin where
  | streamed
  | held
  deriving DecidableEq

abbrev Read (α : Type) := Except Fault α

mutual

/-- Whether the text of the value is JSON throughout. -/
def passable : Json → Bool
  | .arr items => passableItems items
  | .obj members => passableMembers members
  | .cut members whole => whole && passableMembers members
  | .broken => false
  | _ => true

def passableItems : List Json → Bool
  | [] => true
  | v :: vs => passable v && passableItems vs

def passableMembers : List (String × Json) → Bool
  | [] => true
  | (_, v) :: ms => passable v && passableMembers ms

end

mutual

/-- Whether every part of the value has a value of its own. -/
def meaningful : Json → Bool
  | .arr items => meaningfulItems items
  | .obj members => meaningfulMembers members
  | .broken => false
  | .valueless => false
  | .cut _ _ => false
  | _ => true

def meaningfulItems : List Json → Bool
  | [] => true
  | v :: vs => meaningful v && meaningfulItems vs

def meaningfulMembers : List (String × Json) → Bool
  | [] => true
  | (_, v) :: ms => meaningful v && meaningfulMembers ms

end

mutual

/-- The value with `n` levels of containers. What is nested deeper has no value
of its own. -/
def clip : Nat → Json → Json
  | 0, .arr items => if passableItems items then .valueless else .broken
  | 0, .obj members => if passableMembers members then .valueless else .broken
  | 0, .cut members whole =>
    if whole && passableMembers members then .valueless else .broken
  | n + 1, .arr items => .arr (clipItems n items)
  | n + 1, .obj members => .obj (clipMembers n members)
  | n + 1, .cut members whole => .cut (clipMembers n members) whole
  | _, v => v

def clipItems (n : Nat) : List Json → List Json
  | [] => []
  | v :: vs => clip n v :: clipItems n vs

def clipMembers (n : Nat) : List (String × Json) → List (String × Json)
  | [] => []
  | (k, v) :: ms => (k, clip n v) :: clipMembers n ms

end

/-- How many levels of containers a text may have where it is not passed over. -/
def depthLimit : Nat := 127

def skip (v : Json) : Read Unit :=
  if v.passable then .ok () else .error .text

/-- Holds a value back to read it later. -/
def hold (v : Json) : Read Json :=
  if v.meaningful then .ok v else .error .text

/-- The fault of a value of a kind that is not asked for. -/
def mismatch : Json → Fault
  | .broken => .text
  | .valueless => .text
  | _ => .shape

/-- An integer from `low` up to but not including `high`. -/
def asInt (low high : Int) : Json → Read Int
  | .int n => if low ≤ n ∧ n < high then .ok n else .error .shape
  | v => .error v.mismatch

def asUInt8 (v : Json) : Read UInt8 :=
  (fun n => UInt8.ofNat n.toNat) <$> v.asInt 0 0x100

def asUInt16 (v : Json) : Read UInt16 :=
  (fun n => UInt16.ofNat n.toNat) <$> v.asInt 0 0x10000

def asUInt32 (v : Json) : Read UInt32 :=
  (fun n => UInt32.ofNat n.toNat) <$> v.asInt 0 0x100000000

def asInt8 (v : Json) : Read Int8 :=
  Int8.ofInt <$> v.asInt (-0x80) 0x80

def asBool : Json → Read Bool
  | .bool b => .ok b
  | v => .error v.mismatch

def asString : Json → Read String
  | .str s => .ok s
  | v => .error v.mismatch

/-- Reads the items of an array in order. -/
def asList {α : Type} (read : Json → Read α) : Json → Read (List α)
  | .arr items => items.mapM read
  | v => .error v.mismatch

/-- Reads `null` as absence. -/
def asOption {α : Type} (read : Json → Read α) : Json → Read (Option α)
  | .null => .ok none
  | v => some <$> read v

/-- Reads an alternative through its name and what comes with the name. -/
def asVariant {α : Type} (origin : Origin) (read : String → Option Json → Read α) :
    Json → Read α
  | .str s => read s none
  | .obj ((k, v) :: rest) =>
    match read k (some v), rest, origin with
    | .error e, _, _ => .error e
    | .ok a, [], _ => .ok a
    | .ok _, _ :: _, .streamed => .error .text
    | .ok _, _ :: _, .held => .error .shape
  | .cut ((k, v) :: _) _ => do
    let _ ← read k (some v)
    .error .text
  | .cut [] _ => .error .text
  | .broken => .error .text
  | .valueless => .error .text
  | _ =>
    match origin with
    | .streamed => .error .text
    | .held => .error .shape

/-- Reads what comes with the name of an alternative that carries nothing. A
value that was held back may stand as an empty object there. -/
def asNothing (origin : Origin) : Option Json → Read Unit
  | none => .ok ()
  | some .null => .ok ()
  | some (.obj []) =>
    match origin with
    | .streamed => .error .shape
    | .held => .ok ()
  | some v => .error v.mismatch

/-- Reads what comes with the name of an alternative that carries a value. -/
def asPayload {α : Type} (read : Json → Read α) : Option Json → Read α
  | none => .error .shape
  | some v => read v

/-- Reads the name of an alternative that carries nothing. -/
def asName {α : Type} (origin : Origin) (find : String → Option α) : Json → Read α :=
  asVariant origin fun s payload =>
    match find s with
    | none => .error .shape
    | some a => (fun _ => a) <$> asNothing origin payload

/-- A reader of objects: the members found so far are gathered in a draft. -/
structure Fields (α : Type) where
  Draft : Type
  blank : Draft
  /-- The known keys in order. -/
  keys : List String
  /-- Adds a member to the draft; none for a key that is not known. -/
  put : Draft → String → Json → Option (Read Draft)
  finish : Draft → Read α

namespace Fields

/-- One member with the given key. `absent` answers for an object without it. -/
def one {α : Type} (key : String) (absent : Read α) (read : Json → Read α) : Fields α where
  Draft := Option α
  blank := none
  keys := [key]
  put draft k v :=
    if k = key then
      some (match draft with
        | none => some <$> read v
        | some _ => .error .shape)
    else none
  finish
    | none => absent
    | some a => .ok a

/-- A member that must be there. -/
def required {α : Type} (key : String) (read : Json → Read α) : Fields α :=
  one key (.error .shape) read

/-- A member that may be left out, `default` standing in for it. -/
def defaulted {α : Type} (key : String) (default : α) (read : Json → Read α) : Fields α :=
  one key (.ok default) read

/-- A member that may be left out or `null`. -/
def optional {α : Type} (key : String) (read : Json → Read α) : Fields (Option α) :=
  defaulted key none (asOption read)

/-- The members of two readers with different keys. -/
def both {α β : Type} (f : Fields α) (g : Fields β) : Fields (α × β) where
  Draft := f.Draft × g.Draft
  blank := (f.blank, g.blank)
  keys := f.keys ++ g.keys
  put draft k v :=
    match f.put draft.1 k v with
    | some r => some ((fun d => (d, draft.2)) <$> r)
    | none => (g.put draft.2 k v).map fun r => (fun d => (draft.1, d)) <$> r
  finish draft := do
    let a ← f.finish draft.1
    let b ← g.finish draft.2
    return (a, b)

/-- Reads further what the members gave. -/
def andThen {α β : Type} (f : Fields α) (next : α → Read β) : Fields β where
  Draft := f.Draft
  blank := f.blank
  keys := f.keys
  put := f.put
  finish draft := do next (← f.finish draft)

def map {α β : Type} (g : α → β) (f : Fields α) : Fields β :=
  f.andThen fun a => .ok (g a)

/-- Adds one member of an object to the draft. -/
def step {α : Type} (f : Fields α) (draft : f.Draft) (member : String × Json) : Read f.Draft :=
  match f.put draft member.1 member.2 with
  | some r => r
  | none => (fun _ => draft) <$> skip member.2

def readMembers {α : Type} (f : Fields α) (members : List (String × Json)) : Read α := do
  f.finish (← members.foldlM f.step f.blank)

/-- The fault of an item beyond the last. -/
def surplus : Origin → Fault
  | .streamed => .text
  | .held => .shape

/-- Reads the items of an array that stands for an object. -/
def readItems {α : Type} (f : Fields α) (origin : Origin) (items : List Json) : Read α := do
  let draft ← (f.keys.zip items).foldlM f.step f.blank
  if f.keys.length < items.length then .error (surplus origin) else f.finish draft

def read {α : Type} (f : Fields α) (origin : Origin) : Json → Read α
  | .obj members => f.readMembers members
  | .cut members _ => do
    let _ ← members.foldlM f.step f.blank
    .error .text
  | .arr items => f.readItems origin items
  | v => .error v.mismatch

end Fields

def readText {α : Type} (read : Json → Read α) (text : String) : Read α := do
  let document := Document.read text.toList
  let a ← read (document.root.clip depthLimit)
  if document.trailing then .error .text else return a

/-- What stands in a text for bytes that are no character. Like them, it is no
JSON except within a string, and a string with it has no value but may be passed
over. -/
def misfit : List Char :=
  [Text.replacement, '\\', 'u', 'd', 'c', '0', '0']

def textOf (bytes : List UInt8) : String :=
  String.ofList ((Text.decode bytes).flatMap fun c => c.elim misfit fun c => [c])

/-- Reads the bytes of a file. -/
def readBytes {α : Type} (read : Json → Read α) (bytes : List UInt8) : Read α :=
  readText read (textOf bytes)

end GoldenTrace.Json
