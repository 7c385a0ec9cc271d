import GoldenTrace.Fixture

/-!
# Command-line arguments

Three commands are understood: `generate`, `compare` and `presets`. Options may
stand anywhere before `--`, long ones with their value after an equals sign or
as the next argument, short ones in clusters. A flag or an option that takes
one value is given at most once. Arguments are checked one after the other, and
a question for help or for the version is answered where it stands: what comes
after it is not looked at, and what comes before it must be in order.

`compare` passes everything after the program on to it. The first of these
arguments may still be an option that `compare` knows; from the first one that
is not, all belong to the program.
-/

namespace GoldenTrace.CommandLine

inductive Request where
  | generate (input output : String) (options : BatchOptions) (layout : Json.Layout)
  | compare (fixture program : String) (args : List String) (filter : Option String)
      (directory : Option String)
  | presets (output : Option String)

inductive Stop where
  | usage
  | version
  | help

/-- How often and with what an option is given. -/
inductive Arity where
  | flag
  | value
  | values
  deriving DecidableEq

/-- An option by its names. -/
structure OptionSpec where
  long : String
  short : Option Char
  arity : Arity
  /-- Whether a text is a value of the option. -/
  accepts : String → Bool

/-- The options and the positional arguments of a command. From position
`freeFrom` on, what is not an option is an argument even if it begins with a
hyphen. -/
structure Grammar where
  options : List OptionSpec
  /-- Whether a text may stand at a position. -/
  accepts : Nat → String → Bool
  freeFrom : Option Nat

/-- The arguments of a command, sorted out. -/
structure Sorted where
  flags : List String
  values : List (String × String)
  positionals : List String

namespace Grammar

def findLong? (g : Grammar) (name : String) : Option OptionSpec :=
  g.options.find? fun o => o.long == name

def findShort? (g : Grammar) (c : Char) : Option OptionSpec :=
  g.options.find? fun o => o.short == some c

/-- Whether the next argument may begin with a hyphen. -/
def freeAt (g : Grammar) (s : Sorted) : Bool :=
  match g.freeFrom with
  | none => false
  | some n => n ≤ s.positionals.length

end Grammar

namespace Sorted

def empty : Sorted := ⟨[], [], []⟩

def hasFlag (s : Sorted) (name : String) : Bool :=
  s.flags.contains name

/-- The value of an option that is given at most once. -/
def value? (s : Sorted) (name : String) : Option String :=
  (s.values.find? fun v => v.1 == name).map (·.2)

def valuesOf (s : Sorted) (name : String) : List String :=
  (s.values.filter fun v => v.1 == name).map (·.2)

/-- Adds an argument at the next position. -/
def addPositional (s : Sorted) (g : Grammar) (arg : String) : Except Stop Sorted :=
  if g.accepts s.positionals.length arg then .ok { s with positionals := s.positionals ++ [arg] }
  else .error .usage

/-- Adds a flag. Help and version end the sorting at once. -/
def addFlag (s : Sorted) (name : String) : Except Stop Sorted :=
  if name = "help" then .error .help
  else if name = "version" then .error .version
  else if s.hasFlag name then .error .usage
  else .ok { s with flags := s.flags ++ [name] }

/-- Adds the value of an option. -/
def addValue (s : Sorted) (o : OptionSpec) (v : String) : Except Stop Sorted :=
  if !o.accepts v then .error .usage
  else if o.arity = .value ∧ (s.value? o.long).isSome then .error .usage
  else .ok { s with values := s.values ++ [(o.long, v)] }

end Sorted

inductive Shape where
  | endOfOptions
  | positional
  /-- An option, with a value after an equals sign. -/
  | long (o : OptionSpec) (attached : Option String)
  /-- A cluster of short options. -/
  | cluster (letters : List Char)
  | unknown

/-- What comes before and after the first equals sign. -/
def cutAtEquals (cs : List Char) : List Char × Option (List Char) :=
  match cs.dropWhile (· != '=') with
  | [] => (cs, none)
  | _ :: rest => (cs.takeWhile (· != '='), some rest)

/-- What an argument is where it stands. -/
def shapeOf (g : Grammar) (s : Sorted) (arg : String) : Shape :=
  match arg.toList with
  | '-' :: '-' :: [] => .endOfOptions
  | '-' :: '-' :: body =>
    let (name, attached) := cutAtEquals body
    match g.findLong? (String.ofList name) with
    | some o => .long o (attached.map String.ofList)
    | none => if g.freeAt s then .positional else .unknown
  | '-' :: c :: letters =>
    if g.freeAt s && (c :: letters).any (fun x => (g.findShort? x).isNone) then .positional
    else .cluster (c :: letters)
  | _ => .positional

/-- Takes a cluster of short options. The result tells which of them still
waits for its value. -/
def takeCluster (g : Grammar) (s : Sorted) : List Char → Except Stop (Sorted × Option OptionSpec)
  | [] => .ok (s, none)
  | c :: rest =>
    match g.findShort? c with
    | none => .error .usage
    | some o =>
      match o.arity, rest with
      | .flag, _ => do takeCluster g (← s.addFlag o.long) rest
      | _, [] => .ok (s, some o)
      | _, '=' :: v => do return (← s.addValue o (String.ofList v), none)
      | _, v => do return (← s.addValue o (String.ofList v), none)

/-- Takes one argument that is no positional. -/
def takeOption (g : Grammar) (s : Sorted) : Shape → Except Stop (Sorted × Option OptionSpec)
  | .long o none =>
    match o.arity with
    | .flag => do return (← s.addFlag o.long, none)
    | _ => .ok (s, some o)
  | .long o (some v) =>
    match o.arity with
    | .flag => .error .usage
    | _ => do return (← s.addValue o v, none)
  | .cluster letters => takeCluster g s letters
  | _ => .error .usage

/-- Sorts out arguments. `waiting` is an option whose value comes next, and
after `free` everything is positional. -/
def sort (g : Grammar) (s : Sorted) (waiting : Option OptionSpec) (free : Bool) :
    List String → Except Stop Sorted
  | [] => if waiting.isSome then .error .usage else .ok s
  | arg :: rest =>
    if free then do sort g (← s.addPositional g arg) none true rest
    else
      match shapeOf g s arg, waiting with
      | .positional, some o => do sort g (← s.addValue o arg) none false rest
      | .positional, none => do sort g (← s.addPositional g arg) none (g.freeAt s) rest
      | _, some _ => .error .usage
      | .endOfOptions, none => sort g s none true rest
      | shape, none => do
        let (s, waiting) ← takeOption g s shape
        sort g s waiting false rest

/-- An effective opcode in hexadecimal, with or without `0x` in front. -/
def parseOpcode (s : String) : Option UInt16 :=
  let ds := (Text.afterHexMark s.toList).getD s.toList
  (Text.readNumeral 16 ds).bind fun n => if n < 0x10000 then some (UInt16.ofNat n) else none

/-- A path is never empty. -/
def isPath (s : String) : Bool :=
  !s.isEmpty

def flagOption (long : String) (short : Option Char) : OptionSpec :=
  ⟨long, short, .flag, fun _ => false⟩

def verboseOption : OptionSpec := flagOption "verbose" (some 'v')

def helpOption : OptionSpec := flagOption "help" (some 'h')

def generateGrammar : Grammar where
  options := [flagOption "strict" none, flagOption "compact" none,
    ⟨"exclude", none, .values, fun s => (parseOpcode s).isSome⟩, verboseOption, helpOption]
  accepts position s := position < 2 && isPath s
  freeFrom := none

def compareGrammar : Grammar where
  options := [⟨"name", some 'n', .value, fun _ => true⟩, ⟨"cwd", none, .value, isPath⟩,
    verboseOption, helpOption]
  accepts position s := 2 ≤ position || isPath s
  freeFrom := some 2

def presetsGrammar : Grammar where
  options := [⟨"output", some 'o', .value, isPath⟩, verboseOption, helpOption]
  accepts _ _ := false
  freeFrom := none

/-- The options that may stand before the command. -/
def outerGrammar : Grammar where
  options := [verboseOption, helpOption, flagOption "version" (some 'V')]
  accepts _ _ := false
  freeFrom := none

def generateRequest (s : Sorted) : Except Stop Request :=
  match s.positionals with
  | [input, output] =>
    .ok (.generate input output ⟨s.hasFlag "strict", (s.valuesOf "exclude").filterMap parseOpcode⟩
      (if s.hasFlag "compact" then .compact else .indented))
  | _ => .error .usage

def compareRequest (s : Sorted) : Except Stop Request :=
  match s.positionals with
  | fixture :: program :: args =>
    .ok (.compare fixture program args (s.value? "name") (s.value? "cwd"))
  | _ => .error .usage

/-- What `help` answers. It may be asked about one command. -/
def helpFor : List String → Stop
  | [] => .help
  | [command] =>
    if ["generate", "compare", "presets", "help"].contains command then .help else .usage
  | _ => .usage

def parseCommand (name : String) (args : List String) : Except Stop Request := do
  if name = "generate" then generateRequest (← sort generateGrammar .empty none false args)
  else if name = "compare" then compareRequest (← sort compareGrammar .empty none false args)
  else if name = "presets" then
    return .presets ((← sort presetsGrammar .empty none false args).value? "output")
  else if name = "help" then .error (helpFor args)
  else .error .usage

/-- Reads the options before the command, then the command. -/
def parseFrom (s : Sorted) : List String → Except Stop Request
  | [] => .error .usage
  | arg :: rest =>
    match shapeOf outerGrammar s arg with
    | .positional => parseCommand arg rest
    | shape => do
      let (s, _) ← takeOption outerGrammar s shape
      parseFrom s rest

def parse (args : List String) : Except Stop Request :=
  parseFrom .empty args

end GoldenTrace.CommandLine
