import GoldenTrace.CommandLine.Arguments
import GoldenTrace.Host
import GoldenTrace.Report

/-!
# Sessions

A session is one run of the program with its arguments on a host. It answers
with an exit status and text for standard output, and on failure with the
reason. Nothing is written before everything that may fail without writing has
succeeded, so a failed generation leaves all files as they were.
-/

namespace GoldenTrace.CommandLine

inductive Outcome where
  | success
  | failure (reason : String)
  /-- The arguments make no request. -/
  | usage

/-- What a session leaves besides files. -/
structure Result where
  stdout : String
  outcome : Outcome

namespace Result

def exitCode (r : Result) : Nat :=
  match r.outcome with
  | .success => 0
  | .failure _ => 1
  | .usage => 2

/-- The line that tells why the session failed. -/
def errorLine? (r : Result) : Option String :=
  match r.outcome with
  | .failure reason => some ("Error: " ++ reason)
  | _ => none

def failed (reason : String) : Result :=
  ⟨"", .failure reason⟩

end Result

def versionLine : String :=
  "goldboy 0.1.0\n"

/-- A reminder of the commands. -/
def helpText : String :=
  "Usage: goldboy [-v] generate [--strict] [--exclude OPCODE]... [--compact] INPUT OUTPUT\n" ++
    "       goldboy [-v] compare [-n NAME] [--cwd DIR] FIXTURE PROGRAM [ARGS]...\n" ++
    "       goldboy [-v] presets [-o OUTPUT]\n"

section

variable {m : Type → Type} [Monad m]

/-- The fixture for the contents of a descriptor file, or why there is none. -/
def fixtureOf (input : String) (options : BatchOptions) (contents : Option (List UInt8)) :
    Except String Fixture :=
  match contents.map (Json.readBytes InstructionEntry.listOfJson) with
  | some (.ok entries) =>
    match Batch.generate entries options with
    | .ok report => .ok (.ofReport report)
    | .error e => .error e.message
  | _ => .error ("failed to read descriptors from " ++ input)

/-- Makes a fixture file from a descriptor file. -/
def generate (host : Host m) (input output : String) (options : BatchOptions)
    (layout : Json.Layout) : m Result := do
  match fixtureOf input options (← host.readFile input) with
  | .error reason => return .failed reason
  | .ok fixture =>
    if ← host.writeFile output (Text.encode (fixture.render layout)) then return ⟨"", .success⟩
    else return .failed ("failed to write fixture " ++ output)

/-- What a finished or failed harness captured. -/
def capturedFrom (program : String) :
    Except String (Exit × List UInt8) → Except CaptureError Queue
  | .error reason => .error (.launch program reason)
  | .ok (exit, output) =>
    if exit.success then Capture.parse (Text.decodeLossy output)
    else .error (.launch program ("exited with " ++ exit.message))

/-- Starts the harness for a case, whose name is its last argument. -/
def capture (host : Host m) (program : String) (args : List String)
    (directory : Option String) (c : TestCase) : m (Except CaptureError Queue) := do
  return capturedFrom program (← host.launch directory program (args ++ [c.name]))

/-- The result of a run: its report, and a failure unless every case passed. -/
def verdict (results : List CaseResult) (unsupported : List Unsupported) : Result :=
  let failed := results.countP fun r => !r.passed
  ⟨renderResults results unsupported,
    if failed = 0 then .success
    else .failure (showNat failed ++ " of " ++ showNat results.length ++ " cases failed")⟩

/-- Compares every selected case of a fixture file with what a harness does. -/
def compare (host : Host m) (fixture program : String) (args : List String)
    (filter directory : Option String) : m Result := do
  match (← host.readFile fixture).map Fixture.parseBytes with
  | some (.ok f) => do
    let results ← f.run filter (capture host program args directory)
    return verdict results f.unsupported
  | _ => return .failed ("failed to read fixture " ++ fixture)

/-- Lists the presets, in a file or on standard output. -/
def presets (host : Host m) : Option String → m Result
  | none => return ⟨Preset.listing ++ "\n", .success⟩
  | some output => do
    if ← host.writeFile output (Text.encode (Preset.listing ++ "\n")) then return ⟨"", .success⟩
    else return .failed ("failed to write " ++ output)

def perform (host : Host m) : Request → m Result
  | .generate input output options layout => generate host input output options layout
  | .compare fixture program args filter directory =>
    compare host fixture program args filter directory
  | .presets output => presets host output

def session (host : Host m) (args : List String) : m Result :=
  match parse args with
  | .ok request => perform host request
  | .error .usage => return ⟨"", .usage⟩
  | .error .version => return ⟨versionLine, .success⟩
  | .error .help => return ⟨helpText, .success⟩

end

end GoldenTrace.CommandLine
