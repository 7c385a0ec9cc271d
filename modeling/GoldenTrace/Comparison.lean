import GoldenTrace.Capture
import GoldenTrace.Command.Order
import GoldenTrace.Fixture

/-!
# Comparison

An expected and a captured queue agree if they span the same number of machine
cycles and agree cycle by cycle. Within a cycle the order of steps is free,
unless a target receives two different values there: then the order shows in
the machine state, and the cycles must be equal step by step.
-/

namespace GoldenTrace

inductive Mismatch where
  | cycleCount (expected actual : Nat)
  /-- A cycle, counted from zero, whose steps differ. -/
  | cycle (index : Nat)
  deriving DecidableEq

def Mismatch.message : Mismatch → String
  | cycleCount expected actual =>
    "spans " ++ showNat actual ++ " cycles, expected " ++ showNat expected
  | cycle index => "cycle " ++ showNat index ++ " differs"

namespace Queue

/-- The last values of the targets after one more write. -/
def remember (last : Target → Option Value) (w : Write) : Target → Option Value :=
  fun t => if t = w.target then some w.value else last t

/-- Whether a write in the cycle changes the value its target received last.
`last` holds the last values so far. -/
def overwrites (last : Target → Option Value) : Queue → Bool
  | [] => false
  | .write w :: q => (last w.target).any (· != w.value) || overwrites (remember last w) q
  | _ :: q => overwrites last q

/-- Whether the order of the steps of a cycle shows in the machine state. -/
def orderMatters (cycle : Queue) : Bool :=
  overwrites (fun _ => none) cycle

def cycleMatches (expected actual : Queue) : Bool :=
  if orderMatters expected || orderMatters actual then expected == actual
  else expected.sorted == actual.sorted

/-- The differing cycles of two lists, the first of which have the given
index. -/
def differences (index : Nat) : List Queue → List Queue → List Mismatch
  | e :: es, a :: as =>
    if cycleMatches e a then differences (index + 1) es as
    else .cycle index :: differences (index + 1) es as
  | _, _ => []

/-- Every difference between two queues; none if they agree. -/
def compare (expected actual : Queue) : List Mismatch :=
  let es := expected.cycles
  let as := actual.cycles
  (if es.length = as.length then [] else [.cycleCount es.length as.length]) ++
    differences 0 es as

end Queue

/-- The comparison of one case with what was captured for it. -/
structure CaseResult where
  case : TestCase
  actual : Except CaptureError Queue
  mismatches : List Mismatch

namespace CaseResult

/-- Compares a case with a capture. A failed capture has no mismatches. -/
def of (case : TestCase) (actual : Except CaptureError Queue) : CaseResult where
  case := case
  actual := actual
  mismatches :=
    match actual with
    | .ok q => case.queue.compare q
    | .error _ => []

def errored (r : CaseResult) : Bool :=
  match r.actual with
  | .ok _ => false
  | .error _ => true

/-- Whether a trace was captured and agrees. -/
def passed (r : CaseResult) : Bool :=
  !r.errored && r.mismatches.isEmpty

end CaseResult

namespace Fixture

/-- The cases whose names begin with a filter, if there is one. -/
def select (f : Fixture) (filter : Option String) : List TestCase :=
  match filter with
  | none => f.cases
  | some s => f.cases.filter fun c => s.toList.isPrefixOf c.name.toList

/-- Captures and compares every selected case, in order. -/
def run {m : Type → Type} [Monad m] (f : Fixture) (filter : Option String)
    (capture : TestCase → m (Except CaptureError Queue)) : m (List CaseResult) :=
  (f.select filter).mapM fun c => CaseResult.of c <$> capture c

end Fixture

end GoldenTrace
