import GoldenTrace.Host
import GoldenTrace.Shell.Print
import GoldenTrace.Shell.State

/-!
# Commands

The commands that need no more of a script than its state: those that print,
test, read and end it.
-/

namespace GoldenTrace.Shell

variable {m : Type → Type} [Monad m]

abbrev Action (m : Type → Type) := StateT State m Unit

namespace Builtin

/-- The commands that are part of the language: a fault in one of them ends the
script, and assignments before them last. -/
def special : List String :=
  [":", ".", "break", "continue", "eval", "exec", "exit", "export", "readonly", "return", "set",
    "shift", "trap", "unset"]

def answer (a : Answer) : Action m :=
  modify fun s => (s.print a.output).withStatus a.status

def status (n : Nat) : Action m :=
  modify (·.withStatus n)

/-! ## Files -/

/-- The contents of files one after another. Files that cannot be read are left
out and make the command fail. -/
def cat (files : Files m) : List String → Action m
  | [] => do
    modify fun s => { (s.print s.input) with input := [], status := 0 }
  | args => do
    status 0
    for arg in args do
      if arg = "-" then
        modify fun s => { (s.print s.input) with input := [] }
      else
        match ← files.readFile ((← get).path arg) with
        | some bytes => modify (·.print bytes)
        | none => status 1

def changeDirectory (files : Files m) : List String → Action m
  | arg :: _ => do
    let path := (← get).path arg
    if ← files.isDirectory path then modify fun s => { s with directory := some path, status := 0 }
    else status 2
  | [] => status 0

/-! ## Tests -/

def integer? (s : String) : Option Int :=
  match s.toList with
  | '-' :: cs => (fun n => -(n : Int)) <$> Text.readDigits 10 cs
  | cs => (fun n => (n : Int)) <$> Text.readNumeral 10 cs

/-- Whether two decimal integers are in a relation; none if one is none. -/
def related (a b : String) (r : Int → Int → Bool) : Option Bool := do
  return r (← integer? a) (← integer? b)

/-- A test of two texts; none for an operator that is not known. -/
def compare? (a op b : String) : Option (Option Bool) :=
  match op with
  | "=" => some (some (a == b))
  | "!=" => some (some (a != b))
  | "<" => some (some (decide (a < b)))
  | ">" => some (some (decide (b < a)))
  | "-eq" => some (related a b (· == ·))
  | "-ne" => some (related a b (· != ·))
  | "-lt" => some (related a b (· < ·))
  | "-le" => some (related a b (· ≤ ·))
  | "-gt" => some (related a b (· > ·))
  | "-ge" => some (related a b (· ≥ ·))
  | _ => none

/-- A test of one text; none for an operator that is not known. -/
def examine (files : Files m) (op : String) (path : String) (text : String) : m (Option Bool) := do
  let file ← files.readFile path
  let directory ← files.isDirectory path
  return match op with
    | "-n" => some (!text.isEmpty)
    | "-z" => some text.isEmpty
    | "-f" => some file.isSome
    | "-d" | "-x" => some directory
    | "-e" | "-r" | "-w" => some (file.isSome || directory)
    | "-s" => some (directory || file.any fun bytes => !bytes.isEmpty)
    | "-L" | "-h" | "-p" | "-S" | "-b" | "-c" | "-t" => some false
    | _ => none

/-- What stands before and after the first of the given words. -/
def splitAt? (word : String) (args : List String) : Option (List String × List String) :=
  match args.dropWhile (· != word) with
  | [] => none
  | _ :: rest => some (args.takeWhile (· != word), rest)

/-- The truth of a test; none if it is none. -/
def test (files : Files m) (s : State) : Nat → List String → m (Option Bool)
  | 0, _ => return none
  | _, [] => return some false
  | _, [text] => return some (!text.isEmpty)
  | n + 1, args => do
    match args with
    | [a, op, b] =>
      if let some answer := compare? a op b then return answer
    | _ => pure ()
    match args with
    | "!" :: rest => return (← test files s n rest).map (!·)
    | [op, text] => examine files op (s.path text) text
    | _ =>
      match splitAt? "-o" args with
      | some (a, b) => return both (· || ·) (← test files s n a) (← test files s n b)
      | none =>
        match splitAt? "-a" args with
        | some (a, b) => return both (· && ·) (← test files s n a) (← test files s n b)
        | none =>
          match args.head?, args.getLast? with
          | some "(", some ")" => test files s n args.tail.dropLast
          | _, _ => return none
where
  both (f : Bool → Bool → Bool) (a b : Option Bool) : Option Bool := do
    return f (← a) (← b)

def runTest (files : Files m) (args : List String) : Action m := do
  let s ← get
  match ← StateT.lift (test files s (args.length + 1) args) with
  | none => status 2
  | some true => status 0
  | some false => status 1

/-! ## Reading -/

/-- The first line of an input without its line feed, whether it has one, and the
rest. -/
def firstLine (input : List UInt8) : List UInt8 × Bool × List UInt8 :=
  let line := input.takeWhile (· != 10)
  match input.drop line.length with
  | [] => (line, false, [])
  | _ :: rest => (line, true, rest)

/-- Drops the backslashes of a line. -/
def dropBackslashes : List Char → List Char
  | '\\' :: c :: cs => c :: dropBackslashes cs
  | c :: cs => c :: dropBackslashes cs
  | [] => []

/-- Gives the fields of a line to variables. The last takes all that is left. -/
def distribute (separators : List Char) (s : State) (line : List Char) : List String → State
  | [] => s
  | [name] =>
    let blank (c : Char) := separators.contains c && (c = ' ' || c = '\t')
    s.assign name (String.ofList (((line.dropWhile blank).reverse.dropWhile blank).reverse))
  | name :: names =>
    let line := line.dropWhile fun c => separators.contains c && (c = ' ' || c = '\t')
    let field := line.takeWhile fun c => !separators.contains c
    distribute separators (s.assign name (String.ofList field)) (line.drop (field.length + 1)) names

/-- Reads a line of the input. -/
def read (args : List String) : Action m :=
  modify fun s =>
    let raw := args.contains "-r"
    let (bytes, complete, rest) := firstLine s.input
    let line := (Text.decodeLossy bytes).toList
    let names := args.filter fun a => !a.startsWith "-"
    { distribute s.separators s (if raw then line else dropBackslashes line) names with
      input := rest, status := if complete then 0 else 1 }

/-! ## Ends -/

/-- The number of a signal by number or name. -/
def signalNumber (s : String) : Option Nat :=
  match Text.readDigits 10 s.toList with
  | some n => some n
  | none =>
    let name := if s.startsWith "SIG" then String.ofList (s.toList.drop 3) else s
    (signalNames.findIdx? (· == name)).map (· + 1)

/-- Signals that do not end a program. -/
def ignored (n : Nat) : Bool :=
  n = 0 || n = 17 || n = 18 || n = 23 || n = 28

/-- Sends a signal. Only the script itself can be reached. -/
def kill : List String → Action m
  | ["-l"] => answer ⟨0, Text.encode (String.join (signalNames.map (· ++ "\n")))⟩
  | [pid] => if pid.startsWith "-" then status 2 else send (some 15) pid
  | ["-s", name, pid] => send (signalNumber name) pid
  | [option, pid] => send (signalNumber (String.ofList (option.toList.drop 1))) pid
  | _ => status 2
where
  send (signal : Option Nat) (pid : String) : Action m :=
    match signal with
    | none => status 2
    | some n =>
      if pid ≠ State.processId then status 1
      else if ignored n then status 0
      else modify (·.finish (.signal n))

def exit : List String → Action m
  | [] => modify fun s => s.finish (.status s.status)
  | n :: _ =>
    match Text.readDigits 10 n.toList with
    | some n => modify (·.finish (.status (n % 256)))
    | none => modify (·.finish (.status 2))

/-- Goes back from a function. -/
def giveBack (args : List String) : Action m :=
  modify fun s =>
    match args.head?.bind fun n => Text.readDigits 10 n.toList with
    | some n => { s with status := n % 256, flow := .back }
    | none => { s with flow := .back }

def leave (again : Bool) (args : List String) : Action m :=
  modify fun s =>
    let n := (args.head?.bind fun n => Text.readDigits 10 n.toList).getD 1
    if s.loops = 0 then s.withStatus 0
    else { s with status := 0, flow := .leave (max 1 (min n s.loops)) again }

/-! ## Parameters and variables -/

def shift (args : List String) : Action m :=
  modify fun s =>
    let n := match args with
      | [] => some 1
      | n :: _ => Text.readDigits 10 n.toList
    match n with
    | some n =>
      if n ≤ s.params.length then { s with params := s.params.drop n, status := 0 }
      else s.finish (.status 2)
    | none => s.finish (.status 2)

/-- Sets the options whose letters are given. -/
def setOptions (on : Bool) (letters : List Char) (s : State) : State :=
  let s := if letters.contains 'e' then { s with exitOnError := on } else s
  if letters.contains 'u' then { s with unsetIsError := on } else s

def set : List String → Action m
  | [] => status 0
  | arg :: rest => do
    match arg.toList with
    | ['-', '-'] => modify fun s => { s with params := rest, status := 0 }
    | '-' :: letters => do
      modify (setOptions true letters)
      set rest
    | '+' :: letters => do
      modify (setOptions false letters)
      set rest
    | _ => modify fun s => { s with params := arg :: rest, status := 0 }

/-- Assigns variables given as `name=value`. -/
def declare (args : List String) : Action m := do
  status 0
  for arg in args do
    let name := arg.toList.takeWhile (· != '=')
    if name.length < arg.length then
      modify (·.assign (String.ofList name) (String.ofList (arg.toList.drop (name.length + 1))))

/-- Assigns variables that programs get. -/
def exportTo (args : List String) : Action m := do
  declare args
  modify fun s =>
    { s with exported := args.map (fun a => String.ofList (a.toList.takeWhile (· != '='))) ++ s.exported }

/-- Forgets variables and functions. -/
def unset : List String → Action m
  | "-f" :: names => modify fun s =>
    { s with functions := s.functions.filter fun f => !names.contains f.1, status := 0 }
  | names => modify fun s => (names.foldl State.unassign s).withStatus 0

/-- Sets a script to run at the end. -/
def trap : List String → Action m
  | script :: signals => modify fun s =>
    if signals.contains "EXIT" || signals.contains "0" then
      { s with farewell := if script = "-" then none else some script, status := 0 }
    else s.withStatus 0
  | [] => status 0

def find? (files : Files m) : String → Option (List String → Action m)
  | ":" | "true" | "sleep" | "wait" => some fun _ => status 0
  | "false" => some fun _ => status 1
  | "echo" => some fun args => answer (Print.shellEcho args)
  | "printf" => some fun args => answer (Print.printf args)
  | "cat" => some (cat files)
  | "test" => some (runTest files)
  | "[" => some fun args =>
    if args.getLast? = some "]" then runTest files args.dropLast else status 2
  | "cd" => some (changeDirectory files)
  | "read" => some read
  | "kill" => some kill
  | "exit" => some exit
  | "return" => some giveBack
  | "break" => some (leave false)
  | "continue" => some (leave true)
  | "shift" => some shift
  | "set" => some set
  | "export" => some exportTo
  | "readonly" | "local" => some declare
  | "unset" => some unset
  | "trap" => some trap
  | _ => none

end Builtin

end GoldenTrace.Shell
