import GoldenTrace.Command.Text

/-!
# Captured traces

A harness prints what a device under test did, one command a line, among any
other output. The trace begins after the first line that reads `TRACE BEGIN`.
From there on a line is taken for a command if its first word is a command
word in upper case, and must then be one; all other lines are noise.
-/

namespace GoldenTrace

/-- Why there is no trace to compare with. -/
inductive CaptureError where
  /-- The harness could not be run to a successful end. -/
  | launch (program reason : String)
  /-- No trace began. -/
  | breakpointNotReached
  /-- A line of the trace, counted from one, is no command. -/
  | line (number : Nat) (e : CommandError)
  deriving DecidableEq

def CaptureError.message : CaptureError → String
  | launch program reason => "failed to launch " ++ program ++ ": " ++ reason
  | breakpointNotReached => "the decoder entry breakpoint was never reached"
  | line number e => "trace line " ++ String.ofList (Text.decimal number) ++ ": " ++ e.message

namespace Capture

/-- The line that a trace begins after. -/
def marker : List Char :=
  "TRACE BEGIN".toList

def isMarker (line : List Char) : Bool :=
  Text.trim line == marker

/-- Whether a line is to be read as a command. -/
def isCommandLine (line : List Char) : Bool :=
  match Text.words line with
  | [] => false
  | head :: _ =>
    head == "WRITE".toList || head == "HALT".toList || head == "SUSPEND".toList

/-- Reads the lines of a trace, the first of which has the given number. -/
def readLines (number : Nat) : List (List Char) → Except CaptureError Queue
  | [] => .ok []
  | line :: rest =>
    if isCommandLine line then
      match Command.parse line with
      | .ok c => (c :: ·) <$> readLines (number + 1) rest
      | .error e => .error (.line number e)
    else readLines (number + 1) rest

/-- Finds the marker among lines, the first of which has the given number, and
reads the trace after it. -/
def findTrace (number : Nat) : List (List Char) → Except CaptureError Queue
  | [] => .error .breakpointNotReached
  | line :: rest =>
    if isMarker line then readLines (number + 1) rest else findTrace (number + 1) rest

/-- The trace in the output of a harness. -/
def parse (text : String) : Except CaptureError Queue :=
  findTrace 1 (Text.lines text.toList)

end Capture

end GoldenTrace
