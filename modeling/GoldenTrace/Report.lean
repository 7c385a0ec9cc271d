import GoldenTrace.Comparison

/-!
# Reports

A report has a line for every case that passed or whose capture failed, and for
every other case a listing of the expected and the captured steps side by side,
with a mark where they differ. It ends in the counts and the instructions that
the batch did not support.
-/

namespace GoldenTrace

/-- A text filled with spaces on the right to a least width. -/
def padRight (width : Nat) (s : String) : String :=
  String.ofList (s.toList ++ List.replicate (width - s.length) ' ')

namespace Listing

def columnWidth : Nat := 32

/-- A row of two columns behind a mark. -/
def row (mark : Char) (left right : String) : String :=
  "  " ++ mark.toString ++ " " ++ padRight columnWidth left ++ " " ++ right ++ "\n"

/-- A step, or nothing where a queue has ended. -/
def cell : Option Command → String
  | none => ""
  | some c => c.display

/-- The row of two steps, marked if they differ. -/
def stepRow (e a : Option Command) : String :=
  row (if e = a then ' ' else '*') (cell e) (cell a)

def rows : Queue → Queue → List String
  | [], [] => []
  | e :: es, [] => stepRow (some e) none :: rows es []
  | [], a :: as => stepRow none (some a) :: rows [] as
  | e :: es, a :: as => stepRow (some e) (some a) :: rows es as

end Listing

namespace CaseResult

def title (r : CaseResult) : String :=
  r.case.name ++ " (" ++ r.case.preset.name ++ ")"

def summary (r : CaseResult) : String :=
  ", ".intercalate (r.mismatches.map Mismatch.message)

def render (r : CaseResult) : String :=
  match r.actual with
  | .error e => "ERROR " ++ r.title ++ ": " ++ e.message ++ "\n"
  | .ok q =>
    if r.mismatches.isEmpty then "PASS " ++ r.title ++ "\n"
    else
      "FAIL " ++ r.title ++ ": " ++ r.summary ++ "\n" ++
        Listing.row ' ' "expected" "actual" ++ String.join (Listing.rows r.case.queue q)

end CaseResult

/-- How many cases a run has, and how they ended. -/
structure Counts where
  total : Nat
  passed : Nat
  errored : Nat

namespace Counts

def of (results : List CaseResult) : Counts where
  total := results.length
  passed := results.countP CaseResult.passed
  errored := results.countP CaseResult.errored

/-- The cases that were captured and do not agree. -/
def failed (c : Counts) : Nat :=
  c.total - c.passed - c.errored

def render (c : Counts) : String :=
  showNat c.total ++ " cases: " ++ showNat c.passed ++ " passed, " ++ showNat c.failed ++
    " failed, " ++ showNat c.errored ++ " errored\n"

end Counts

/-- A line about an instruction that the batch did not support. -/
def Unsupported.render (u : Unsupported) : String :=
  "    " ++ padRight 10 u.instruction ++ " " ++ u.reason ++ "\n"

def renderUnsupported : List Unsupported → String
  | [] => ""
  | us =>
    "unsupported (" ++ showNat us.length ++ "):\n" ++ String.join (us.map Unsupported.render)

def renderResults (results : List CaseResult) (unsupported : List Unsupported) : String :=
  String.join (results.map CaseResult.render) ++ "\n" ++ (Counts.of results).render ++
    renderUnsupported unsupported

end GoldenTrace
