import GoldenTrace.Exit
import GoldenTrace.Shell.Script
import GoldenTrace.Text.Utf8

/-!
# Running scripts: the state

A running script has variables, functions and parameters, reads and prints
bytes, and has a status, which is that of its last command. It goes on to the
next command unless a command has said otherwise.
-/

namespace GoldenTrace.Shell

/-- Where a script goes after a command. -/
inductive Flow where
  /-- To the next command. -/
  | on
  /-- Out of loops, and back into the last of them if `again`. -/
  | leave (loops : Nat) (again : Bool)
  /-- Out of a function. -/
  | back
  | over (e : Exit)
  deriving DecidableEq

inductive Sink where
  /-- To what the script prints. -/
  | printed
  | nowhere
  | file (path : String)
  deriving DecidableEq

structure State where
  vars : List (String × String)
  /-- The variables that programs get. -/
  exported : List String
  functions : List (String × Script)
  /-- What the script is called. -/
  zero : String
  params : List String
  status : Nat
  /-- The status of a script in a word of the command at hand. -/
  inner : Option Nat
  input : List UInt8
  output : List UInt8
  /-- Where error messages go. -/
  errors : Sink
  /-- The directory that paths are seen from. -/
  directory : Option String
  flow : Flow
  /-- How many loops are being run. -/
  loops : Nat
  exitOnError : Bool
  unsetIsError : Bool
  /-- A script to run at the end. -/
  farewell : Option String

namespace State

/-- The process number of a script. -/
def processId : String := "4242"

def initial (directory : Option String) (zero : String) (params : List String) : State where
  vars := []
  exported := []
  functions := []
  zero := zero
  params := params
  status := 0
  inner := none
  input := []
  output := []
  errors := .nowhere
  directory := directory
  flow := .on
  loops := 0
  exitOnError := false
  unsetIsError := false
  farewell := none

def valueOf? (s : State) (name : String) : Option String :=
  (s.vars.find? fun v => v.1 == name).map (·.2)

/-- The value of a parameter, if it is set. -/
def lookup? (s : State) (name : String) : Option String :=
  if name = "0" then some s.zero
  else if name = "#" then some (String.ofList (Text.decimal s.params.length))
  else if name = "?" then some (String.ofList (Text.decimal s.status))
  else if name = "$" then some processId
  else if name = "-" then some ""
  else if name = "!" then none
  else if name = "@" ∨ name = "*" then
    if s.params.isEmpty then none else some (" ".intercalate s.params)
  else
    match Text.readDigits 10 name.toList with
    | some n => s.params[n - 1]?
    | none => s.valueOf? name

/-- The value of a parameter; empty if it is not set. -/
def lookup (s : State) (name : String) : String :=
  (s.lookup? name).getD ""

/-- The characters that fields are cut at. -/
def separators (s : State) : List Char :=
  ((s.valueOf? "IFS").getD " \t\n").toList

def unassign (s : State) (name : String) : State :=
  { s with vars := s.vars.filter fun v => v.1 != name }

def assign (s : State) (name value : String) : State :=
  { s with vars := (name, value) :: (s.unassign name).vars }

/-- The variables that programs get. -/
def environment (s : State) : List (String × String) :=
  s.vars.filter fun v => s.exported.contains v.1

/-- Puts variables back as they were in another state. -/
def restore (s before : State) (names : List String) : State :=
  names.foldl (fun s name =>
    match before.valueOf? name with
    | some v => s.assign name v
    | none => s.unassign name) s

def function? (s : State) (name : String) : Option Script :=
  (s.functions.find? fun f => f.1 == name).map (·.2)

def withStatus (s : State) (n : Nat) : State :=
  { s with status := n }

def print (s : State) (bs : List UInt8) : State :=
  { s with output := s.output ++ bs }

def finish (s : State) (e : Exit) : State :=
  { s with status := e.code, flow := .over e }

/-- How the script ends if it ends here. -/
def exit (s : State) : Exit :=
  match s.flow with
  | .over e => e
  | _ => .status s.status

/-- A path seen from the directory of the script. -/
def path (s : State) (p : String) : String :=
  match s.directory with
  | none => p
  | some d => if p.startsWith "/" then p else d ++ "/" ++ p

end State

/-! ## Fields -/

/-- Fields that are done, in order, and one that is being made. -/
structure FieldList where
  done : List String
  current : Option (List Char)

namespace FieldList

def empty : FieldList := ⟨[], none⟩

def add (f : FieldList) (s : List Char) : FieldList :=
  { f with current := some (f.current.getD [] ++ s) }

def cut (f : FieldList) : FieldList :=
  match f.current with
  | none => f
  | some s => ⟨f.done ++ [String.ofList s], none⟩

/-- Adds unquoted text, which is cut at separators. Blanks cut only fields that
have begun. -/
def addSplit (separators : List Char) (f : FieldList) (s : List Char) : FieldList :=
  s.foldl (fun f c =>
    if separators.contains c then
      if c = ' ' || c = '\t' || c = '\n' then f.cut else (f.add []).cut
    else f.add [c]) f

/-- Adds texts that are fields of their own, the first and the last joined to
what stands next to them. -/
def addEach (f : FieldList) : List String → FieldList
  | [] => f
  | [p] => f.add p.toList
  | p :: ps => ((f.add p.toList).cut).addEach ps

def all (f : FieldList) : List String :=
  f.cut.done

end FieldList

end GoldenTrace.Shell
