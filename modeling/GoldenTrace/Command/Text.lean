import GoldenTrace.Command.Queue

/-!
# Commands as text

A command is one line of words: `HALT`, `SUSPEND STOP`, or `WRITE` with a
target and a number. Keywords and names are read in either case, numbers in
base ten or, after `0x`, in base sixteen. Writing uses upper case and as many
hexadecimal digits as the value is wide.
-/

namespace GoldenTrace

/-- What may be missing from a line. -/
inductive Missing where
  | suspendState
  | writeTarget
  | targetOperand
  | value
  deriving DecidableEq

def Missing.name : Missing → String
  | suspendState => "suspend state"
  | writeTarget => "write target"
  | targetOperand => "target operand"
  | value => "value"

/-- Why a line is no command. -/
inductive CommandError where
  | empty
  | unknownCommand (text : String)
  | unknownTarget (text : String)
  | unknownName (e : NameError)
  | missing (part : Missing)
  | invalidNumber (text : String)
  | widthMismatch (target : Target)
  | trailing (text : String)
  deriving DecidableEq

namespace Target

def display : Target → String
  | register8 r => "REG8 " ++ r.name
  | register16 r => "REG16 " ++ r.name
  | memory a => "MEM " ++ Text.hexLiteral 4 a.toNat
  | flag f => "FLAG " ++ f.name
  | ime => "IME"
  | addressBus => "ADDRESS_BUS"
  | dataBus => "DATA_BUS"
  | pc => "PC"
  | ir => "IR"

end Target

def Value.display : Value → String
  | byte v => Text.hexLiteral 2 v.toNat
  | word v => Text.hexLiteral 4 v.toNat

def Write.display (w : Write) : String :=
  "WRITE " ++ w.target.display ++ " " ++ w.value.display

def Command.display : Command → String
  | write w => w.display
  | halt => "HALT"
  | suspend .halt => "SUSPEND HALT"
  | suspend .stop => "SUSPEND STOP"

def CommandError.message : CommandError → String
  | empty => "empty command line"
  | unknownCommand s => "unknown command '" ++ s ++ "'"
  | unknownTarget s => "unknown write target '" ++ s ++ "'"
  | unknownName e => "unknown write target '" ++ e.message ++ "'"
  | missing part => "missing " ++ part.name
  | invalidNumber s => "invalid number '" ++ s ++ "'"
  | widthMismatch t =>
    "value does not fit " ++ t.display ++ ", which takes a " ++ t.width.name
  | trailing s => "unexpected trailing input '" ++ s ++ "'"

namespace Command

abbrev Word := List Char

/-- Reads a number of at most 32 bits. -/
def parseNumber (word : Word) : Except CommandError Nat :=
  let read := match Text.afterHexMark word with
    | some ds => Text.readNumeral 16 ds
    | none => Text.readNumeral 10 word
  match read with
  | some n => if n < 0x100000000 then .ok n else .error (.invalidNumber (String.ofList word))
  | none => .error (.invalidNumber (String.ofList word))

/-- Reads a number of at most 16 bits. -/
def parseAddress (word : Word) : Except CommandError UInt16 := do
  let n ← parseNumber word
  if n < 0x10000 then .ok (UInt16.ofNat n) else .error (.invalidNumber (String.ofList word))

/-- Names the operand of a target, if it is there. -/
def parseOperand {α : Type} (make : α → Target) (parse : Word → Except CommandError α) :
    List Word → Except CommandError (Target × List Word)
  | [] => .error (.missing .targetOperand)
  | word :: rest => do
    let a ← parse word
    return (make a, rest)

/-- A reader of names as a reader of words. -/
def named {α : Type} (parse : String → Except NameError α) (word : Word) :
    Except CommandError α :=
  match parse (String.ofList word) with
  | .ok a => .ok a
  | .error e => .error (.unknownName e)

/-- Reads the target of a write, which takes one or two words. -/
def parseTarget : List Word → Except CommandError (Target × List Word)
  | [] => .error (.missing .writeTarget)
  | kind :: rest =>
    let keyword := String.ofList (Text.upper kind)
    if keyword = "REG8" then parseOperand .register8 (named Reg8.parse) rest
    else if keyword = "REG16" then parseOperand .register16 (named Reg16.parse) rest
    else if keyword = "FLAG" then parseOperand .flag (named Flag.parse) rest
    else if keyword = "MEM" then parseOperand .memory parseAddress rest
    else if keyword = "IME" then .ok (.ime, rest)
    else if keyword = "ADDRESS_BUS" then .ok (.addressBus, rest)
    else if keyword = "DATA_BUS" then .ok (.dataBus, rest)
    else if keyword = "PC" then .ok (.pc, rest)
    else if keyword = "IR" then .ok (.ir, rest)
    else .error (.unknownTarget keyword)

/-- The value of a number in a width, if it fits. -/
def fit (width : Width) (n : Nat) : Option Value :=
  match width with
  | .byte => if n < 0x100 then some (.byte (UInt8.ofNat n)) else none
  | .word => if n < 0x10000 then some (.word (UInt16.ofNat n)) else none

/-- Reads what follows `WRITE`. -/
def parseWrite (line : List Word) : Except CommandError (Command × List Word) := do
  let (target, rest) ← parseTarget line
  match rest with
  | [] => .error (.missing .value)
  | word :: rest =>
    let n ← parseNumber word
    match (fit target.width n).bind (Write.of? target) with
    | some w => return (.write w, rest)
    | none => .error (.widthMismatch target)

/-- Reads what follows `SUSPEND`. -/
def parseSuspend : List Word → Except CommandError (Command × List Word)
  | [] => .error (.missing .suspendState)
  | state :: rest =>
    let keyword := String.ofList (Text.upper state)
    if keyword = "HALT" then .ok (.suspend .halt, rest)
    else if keyword = "STOP" then .ok (.suspend .stop, rest)
    else .error (.unknownCommand ("SUSPEND " ++ keyword))

/-- Reads a command from the words of a line; words may be left over. -/
def parseHead : List Word → Except CommandError (Command × List Word)
  | [] => .error .empty
  | head :: rest =>
    let keyword := String.ofList (Text.upper head)
    if keyword = "HALT" then .ok (.halt, rest)
    else if keyword = "SUSPEND" then parseSuspend rest
    else if keyword = "WRITE" then parseWrite rest
    else .error (.unknownCommand keyword)

def parseWords (line : List Word) : Except CommandError Command := do
  match ← parseHead line with
  | (c, []) => return c
  | (_, extra :: _) => .error (.trailing (String.ofList extra))

def parse (line : List Char) : Except CommandError Command :=
  parseWords (Text.words line)

end Command

end GoldenTrace
