import GoldenTrace.Json.Token

/-!
# JSON documents

A value is put together from tokens with a stack of the containers that are
still open. A text that stops being JSON still yields a value: every open
container is closed around what came last. So a reader of the value meets what
the text did say before it meets the fault.
-/

namespace GoldenTrace.Json

/-- A container that is still open. Its contents are held in reverse; a member
without a key is one whose key cannot be read. -/
inductive Frame where
  | items (done : List Json)
  | members (done : List (Option String × Json)) (key : Option String)

/-- What may come next in a text. `closable` is true directly after an opening
bracket, where the container may end at once. -/
inductive Expecting where
  | value (closable : Bool) (up : List Frame)
  | key (closable : Bool) (done : List (Option String × Json)) (up : List Frame)
  | colon (key : Option String) (done : List (Option String × Json)) (up : List Frame)
  | nextItem (done : List Json) (up : List Frame)
  | nextMember (done : List (Option String × Json)) (up : List Frame)
  | nothing (root : Json)

/-- A value that was read, and whether the text goes on after it. -/
structure Document where
  root : Json
  trailing : Bool

namespace Expecting

/-- Puts a complete value where one was expected. -/
def deliver (v : Json) : List Frame → Expecting
  | [] => nothing v
  | .items done :: up => nextItem (v :: done) up
  | .members done k :: up => nextMember ((k, v) :: done) up

/-- Closes every open container after the value `v`. -/
def close (v : Json) : List Frame → Json
  | [] => v
  | .items done :: up => close (.arr (v :: done).reverse) up
  | .members done k :: up => close (object ((k, v) :: done).reverse false) up

/-- The value of a text that breaks off, or goes on with a token that does not
fit. -/
def abandon : Expecting → Json
  | value _ up => close .broken up
  | key _ done up => close (.cut (keyed done.reverse) false) up
  | colon k done up => close (object ((k, .broken) :: done).reverse false) up
  | nextItem done up => close (.arr (.broken :: done).reverse) up
  | nextMember done up => close (.cut (keyed done.reverse) false) up
  | nothing root => root

/-- Takes one token, or none where it does not fit. -/
def take? : Expecting → Token → Option Expecting
  | value _ up, .str s => some (deliver (.str s) up)
  | value _ up, .unpaired => some (deliver .valueless up)
  | value _ up, .plain v => some (deliver v up)
  | value _ up, .openArray => some (value true (.items [] :: up))
  | value _ up, .openObject => some (key true [] up)
  | value true (.items [] :: up), .closeArray => some (deliver (.arr []) up)
  | key true _ up, .closeObject => some (deliver (.obj []) up)
  | key _ done up, .str s => some (colon (some s) done up)
  | key _ done up, .unpaired => some (colon none done up)
  | colon k done up, .colon => some (value false (.members done k :: up))
  | nextItem done up, .comma => some (value false (.items done :: up))
  | nextItem done up, .closeArray => some (deliver (.arr done.reverse) up)
  | nextMember done up, .comma => some (key false done up)
  | nextMember done up, .closeObject => some (deliver (object done.reverse true) up)
  | _, _ => none

/-- Takes tokens to the end of the text or to the first that does not fit. -/
def run : Expecting → List Token → Document
  | nothing root, [] => ⟨root, false⟩
  | nothing root, _ :: _ => ⟨root, true⟩
  | e, [] => ⟨e.abandon, false⟩
  | e, t :: ts =>
    match e.take? t with
    | some e => run e ts
    | none => ⟨e.abandon, false⟩

end Expecting

def Document.read (cs : List Char) : Document :=
  Expecting.run (.value false []) (Token.lex cs)

end GoldenTrace.Json
