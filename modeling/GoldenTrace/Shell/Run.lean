import GoldenTrace.Shell.Arithmetic
import GoldenTrace.Shell.Builtin
import GoldenTrace.Shell.Call
import GoldenTrace.Shell.Grammar
import GoldenTrace.Shell.Pattern

/-!
# Running scripts

Words are expanded, streams are redirected and commands are run, one after the
other. A script may repeat itself without end and read new scripts as it runs,
so running takes fuel, a step of it for every part of a script; one that runs
out of it fails.
-/

namespace GoldenTrace.Shell

variable {m : Type → Type} [Monad m]

/-! ## Parts of a run -/

/-- Runs a part of a script from the state at hand and goes back to that state.
What the part did to files stays. -/
def aside (body : Action m) : StateT State m State := fun s => do
  let ((), t) ← body.run { s with output := [], loops := 0, farewell := none }
  return (t, s)

/-- Ends the script with a part of it that was ended by a signal. -/
def endWith (part : State) : Action m :=
  match part.exit with
  | .signal n => modify (·.finish (.signal n))
  | .status _ => pure ()

/-- Takes over what a part of a script printed and how it ended. -/
def rejoin (part : State) : Action m := do
  modify fun s => (s.print part.output).withStatus part.exit.code
  endWith part

/-- Ends a script whose commands must not fail, if one has. -/
def settle (tested : Bool) : Action m :=
  modify fun s =>
    if s.exitOnError && !tested && s.status != 0 && s.flow == .on then s.finish (.status s.status)
    else s

/-- Goes on unless the script has gone elsewhere. -/
def next (body : Action m) : Action m := do
  if (← get).flow = .on then body

/-- The lines feeds at the end of a text are dropped. -/
def dropLineFeeds (cs : List Char) : List Char :=
  (cs.reverse.dropWhile (· == '\n')).reverse

/-- Ends a script at a fault in the language. -/
def fault : Action m :=
  modify (·.finish (.status 2))

/-- The value of a parameter; one that is not set may be a fault. -/
def value (name : String) : StateT State m String := do
  let s ← get
  match s.lookup? name with
  | some v => return v
  | none =>
    if s.unsetIsError && name != "@" && name != "*" then fault
    return ""

/-! ## Streams -/

/-- Where the streams of a command go. -/
structure Streams where
  output : Sink
  errors : Sink

/-- The sink of a path. -/
def sinkOf (s : State) (streams : Streams) (path : String) : Sink :=
  if path = "/dev/null" then .nowhere
  else if path = "/dev/stdout" then streams.output
  else if path = "/dev/stderr" then streams.errors
  else .file (s.path path)

/-- Makes a sink ready; false if that fails. -/
def prepare (files : Files m) (append : Bool) : Sink → m Bool
  | .printed | .nowhere => return true
  | .file path => do
    if append then
      match ← files.readFile path with
      | some _ => return true
      | none => files.writeFile path []
    else files.writeFile path []

/-- Puts bytes into a sink. -/
def pour (files : Files m) (sink : Sink) (bs : List UInt8) : Action m := do
  match sink with
  | .printed => modify (·.print bs)
  | .nowhere => pure ()
  | .file path => do
    let before ← files.readFile path
    discard (files.writeFile path (before.getD [] ++ bs) : StateT State m Bool)

/-- Sends a stream where another goes. -/
def Streams.duplicate (streams : Streams) (stream : Nat) (target : Option Nat) : Streams :=
  let sink := match target with
    | some 1 => streams.output
    | some 2 => streams.errors
    | _ => .nowhere
  match stream with
  | 1 => { streams with output := sink }
  | 2 => { streams with errors := sink }
  | _ => streams

/-- Sends a stream to a sink. -/
def Streams.send (streams : Streams) (stream : Nat) (sink : Sink) : Streams :=
  match stream with
  | 1 => { streams with output := sink }
  | 2 => { streams with errors := sink }
  | _ => streams

/-- Where errors go while the output is gathered to be poured out later: along
with it, if both go to one place. -/
def Streams.errorsWithin (streams : Streams) : Sink :=
  if streams.errors = streams.output then .printed
  else if streams.errors = .printed then .nowhere
  else streams.errors

/-- Whether a redirection changes the input. -/
def takesInput : Redirection → Bool
  | .input _ | .document _ => true
  | .output .. | .duplicate .. => false

/-- Whether a script is a command that is part of the language. -/
def namesSpecial : Script → Bool
  | .simple _ (w :: _) => Builtin.special.contains (String.ofList (Token.literals w))
  | _ => false

/-- Whether a loop goes on after its body or its condition. -/
def goesOn : StateT State m Bool := do
  match (← get).flow with
  | .on => return true
  | .leave 0 again | .leave 1 again => do
    modify fun s => { s with flow := .on }
    return again
  | .leave (k + 1) again => do
    modify fun s => { s with flow := .leave k again }
    return false
  | .back | .over _ => return false

/-! ## Words and commands -/

/-- Adds an expanded text to fields. -/
def addText (quoted : Bool) (f : FieldList) (text : List Char) : StateT State m FieldList := do
  let s ← get
  return if quoted then f.add text else f.addSplit s.separators text

/-- Whether an operator looks at empty parameters as at those that are not set. -/
def minds (operator : String) : Bool :=
  operator.startsWith ":"

mutual

/-- Adds a part of a word to fields. -/
def expandPiece (files : Files m) : Nat → FieldList → Piece → StateT State m FieldList
  | 0, f, _ => do fault; return f
  | n + 1, f, piece => do
    match piece with
    | .literal cs true => return f.add cs
    | .literal cs false => return if cs.isEmpty then f else f.add cs
    | .parameter "@" true => return f.addEach (← get).params
    | .parameter name true => return f.add (← value name).toList
    | .parameter name false => return f.addSplit (← get).separators (← value name).toList
    | .command text quoted => addText quoted f (← capture files n text)
    | .arithmetic text quoted => addText quoted f (← compute files n text)
    | .modified name op operand quoted => expandModified files n f name op operand quoted

/-- Adds a parameter with an operator to fields. -/
def expandModified (files : Files m) : Nat → FieldList → String → String → List Char → Bool →
    StateT State m FieldList
  | 0, f, _, _, _, _ => do fault; return f
  | n + 1, f, name, op, operand, quoted => do
    let s ← get
    let held := s.lookup? name
    let there := held.any fun v => !(minds op && v.isEmpty)
    let text := (held.getD "").toList
    if op = "length" then addText quoted f (Text.decimal text.length)
    else if op = "-" || op = ":-" then
      if there then addText quoted f text else expandOperand files n f operand quoted
    else if op = "+" || op = ":+" then
      if there then expandOperand files n f operand quoted else addText quoted f []
    else if op = "=" || op = ":=" then
      if there then addText quoted f text
      else do
        let text ← whole files n operand
        modify (·.assign name (String.ofList text))
        addText quoted f text
    else if op = "?" || op = ":?" then
      if there then addText quoted f text
      else do
        fault
        return f
    else do
      let pattern := Pattern.ofParts (← parts files n ((Token.readText .operand operand).getD []))
      let longest := op.length = 2
      addText quoted f
        (if op.startsWith "#" then Pattern.dropLeading pattern longest text
        else Pattern.dropTrailing pattern longest text)

/-- Adds the word of an operator to fields. -/
def expandOperand (files : Files m) : Nat → FieldList → List Char → Bool → StateT State m FieldList
  | 0, f, _, _ => do fault; return f
  | n + 1, f, operand, quoted => do
    if quoted then return f.add (← whole files n operand)
    else
      match Token.readText .operand operand with
      | none => do fault; return f
      | some w =>
        w.foldlM (fun f piece =>
          match piece with
          | .literal cs false => do return f.addSplit (← get).separators cs
          | piece => expandPiece files n f piece) f

/-- The texts of the parts of a word, and whether they are quoted. -/
def parts (files : Files m) : Nat → Word → StateT State m (List (List Char × Bool))
  | 0, _ => do fault; return []
  | n + 1, w =>
    w.mapM fun piece => do
      match piece with
      | .literal cs quoted => return (cs, quoted)
      | .parameter name quoted => return ((← value name).toList, quoted)
      | .command text quoted => return (← capture files n text, quoted)
      | .arithmetic text quoted => return (← compute files n text, quoted)
      | .modified name op operand quoted => do
        let f ← expandModified files n .empty name op operand true
        return ((" ".intercalate f.all).toList, quoted)

def expandWhole (files : Files m) : Nat → Word → StateT State m (List Char)
  | 0, _ => do fault; return []
  | n + 1, w => do return (← parts files n w).flatMap (·.1)

/-- The text of an operator's word. -/
def whole (files : Files m) : Nat → List Char → StateT State m (List Char)
  | 0, _ => do fault; return []
  | n + 1, text =>
    match Token.readText .operand text with
    | none => do fault; return []
    | some w => expandWhole files n w

/-- What a script prints, without the line feeds at its end. -/
def capture (files : Files m) : Nat → List Char → StateT State m (List Char)
  | 0, _ => do fault; return []
  | n + 1, text => do
    match Grammar.parse text with
    | none => do fault; return []
    | some script => do
      let part ← aside (run files n false script)
      modify fun s => { s with inner := some part.exit.code }
      endWith part
      return dropLineFeeds (Text.decodeLossy part.output).toList

def compute (files : Files m) : Nat → List Char → StateT State m (List Char)
  | 0, _ => do fault; return []
  | n + 1, text =>
    match Token.readText .document text with
    | none => do fault; return []
    | some w => do
      let text ← expandWhole files n w
      match Arithmetic.evaluate (← get).lookup text with
      | some k => return Text.integer k
      | none => do fault; return []

def expand (files : Files m) : Nat → List Word → StateT State m (List String)
  | 0, _ => do fault; return []
  | n + 1, words => do
    let fields ← words.mapM fun w => do
      return (← w.foldlM (expandPiece files n) .empty).all
    return fields.flatten

/-- Runs a command that is named by a word. -/
def command (files : Files m) : Nat → Bool → List String → Action m
  | 0, _, _ => fault
  | _ + 1, _, [] => Builtin.status 0
  | n + 1, tested, name :: args => do
    match (← get).function? name with
    | some body => callFunction files n tested body args
    | none =>
      match Builtin.find? files name with
      | some act => act args
      | none =>
        if name = "command" || name = "env" then command files n tested args
        else if name = "exec" then
          command files n tested args
          if !args.isEmpty then next (modify fun s => s.finish (.status s.status))
        else if name = "eval" then evaluate files n tested (" ".intercalate args)
        else if name = "." then source files n tested args
        else program files n name args

/-- Runs the text of a file in the state at hand. -/
def source (files : Files m) : Nat → Bool → List String → Action m
  | 0, _, _ => fault
  | _ + 1, _, [] => Builtin.status 2
  | n + 1, tested, file :: _ => do
    match ← files.readFile ((← get).path file) with
    | none => fault
    | some bytes => do
      evaluate files n tested (Text.decodeLossy bytes)
      modify fun s => if s.flow = .back then { s with flow := .on } else s

def callFunction (files : Files m) : Nat → Bool → Script → List String → Action m
  | 0, _, _, _ => fault
  | n + 1, tested, body, args => do
    let before ← get
    modify fun s => { s with params := args, loops := 0 }
    run files n tested body
    modify fun s =>
      { s with
        params := before.params, loops := before.loops,
        flow := if s.flow = .back then .on else s.flow }

/-- Runs a text as a script in the state at hand. -/
def evaluate (files : Files m) : Nat → Bool → String → Action m
  | 0, _, _ => fault
  | n + 1, tested, text =>
    match Grammar.parse text.toList with
    | none => fault
    | some script => do
      Builtin.status 0
      run files n tested script

/-- Runs a program that is no command of the shell. -/
def program (files : Files m) : Nat → String → List String → Action m
  | 0, _, _ => fault
  | n + 1, name, args => do
    match program? name with
    | some "sh" => do
      let s ← get
      let part ← aside do
        set { State.initial s.directory "sh" [] with
          vars := s.environment, exported := s.exported, input := s.input, errors := s.errors }
        shell files n args
      modify fun s => (s.print part.output).withStatus part.exit.code
    | some "echo" => Builtin.answer (Print.programEcho args)
    | some "printf" =>
      if args.isEmpty then Builtin.status 1 else Builtin.answer (Print.printf args)
    | some "cat" => Builtin.cat files args
    | some "false" => Builtin.status 1
    | some _ => Builtin.status 0
    | none => do
      let path := (← get).path name
      if !name.toList.contains '/' then Builtin.status 127
      else if (← files.readFile path).isSome || (← files.isDirectory path) then Builtin.status 126
      else Builtin.status 127

/-- Runs the shell with arguments, in a state that is its own. A script that
cannot be read fails. -/
def shell (files : Files m) : Nat → List String → Action m
  | 0, _ => fault
  | n + 1, args => do
    match Call.ofArgs [] args with
    | .incomplete => Builtin.status 2
    | .input options params => do
      let s ← get
      modify fun s => { s with input := [] }
      script files n options "sh" params (Text.decodeLossy s.input)
    | .text options text zero params => script files n options zero params text
    | .file options path params => do
      match ← files.readFile ((← get).path path) with
      | some bytes => script files n options path params (Text.decodeLossy bytes)
      | none => Builtin.status (if ← files.isDirectory ((← get).path path) then 0 else 2)

/-- Runs a text as a script of its own, and what it set to run at its end. -/
def script (files : Files m) : Nat → List Char → String → List String → String → Action m
  | 0, _, _, _, _ => fault
  | n + 1, options, zero, params, text => do
    modify fun s => Builtin.setOptions true options { s with zero := zero, params := params }
    match Grammar.parse text.toList with
    | none => fault
    | some body => do
      run files n false body
      let s ← get
      match s.farewell, s.exit with
      | some farewell, .status k => do
        modify fun s => { s with flow := .on, farewell := none, exitOnError := false }
        evaluate files n true farewell
        next (modify (·.withStatus k))
      | _, _ => pure ()

/-- Applies redirections; none if one of them fails. -/
def redirect (files : Files m) : Nat → Streams → List Redirection →
    StateT State m (Option Streams)
  | 0, _, _ => do fault; return none
  | _ + 1, streams, [] => return some streams
  | n + 1, streams, r :: rs => do
    match r with
    | .output stream append file => do
      let path := String.ofList (← expandWhole files n file)
      let sink := sinkOf (← get) streams path
      if ← StateT.lift (prepare files append sink) then redirect files n (streams.send stream sink) rs
      else return none
    | .input file => do
      let path := String.ofList (← expandWhole files n file)
      match ← files.readFile ((← get).path path) with
      | none => return none
      | some bytes => do
        modify fun s => { s with input := bytes }
        redirect files n streams rs
    | .document text => do
      let text ← expandWhole files n text
      modify fun s => { s with input := Text.encode (String.ofList text) }
      redirect files n streams rs
    | .duplicate stream target => redirect files n (streams.duplicate stream target) rs

/-- Runs a script. It is `tested` where its failure is no error. -/
def run (files : Files m) : Nat → Bool → Script → Action m
  | 0, _, _ => fault
  | n + 1, tested, script => next do
    match script with
    | .nothing => pure ()
    | .simple assignments words => do
      modify fun s => { s with inner := none }
      let fields ← expand files n words
      let before ← get
      for (name, w) in assignments do
        let text ← expandWhole files n w
        modify (·.assign name (String.ofList text))
      next do
        if fields.isEmpty then modify fun s => s.withStatus (s.inner.getD 0)
        else
          let names := assignments.map (·.1)
          modify fun s => { s with exported := names ++ s.exported }
          command files n tested fields
          if !(fields.head?.any Builtin.special.contains) then
            modify fun s => { s.restore before names with exported := s.exported.drop names.length }
        settle tested
    | .redirected a rs => do
      let before ← get
      match ← redirect files n ⟨.printed, before.errors⟩ rs with
      | none =>
        modify fun s => { s with input := before.input, status := 2 }
        if namesSpecial a then fault
        settle tested
      | some streams => do
        modify fun s => { s with errors := streams.errorsWithin, output := [] }
        run files n tested a
        let printed := (← get).output
        modify fun s =>
          { s with
            errors := before.errors, output := before.output,
            input := if rs.any takesInput then before.input else s.input }
        pour files streams.output printed
    | .sequence a b => do
      run files n tested a
      next (run files n tested b)
    | .pipe a b => do
      let first ← aside (run files n false a)
      let second ← aside do
        modify fun s => { s with input := first.output }
        run files n false b
      endWith first
      rejoin second
      settle tested
    | .apart a => do
      let part ← aside (run files n tested a)
      modify fun s => { s with input := part.input }
      rejoin part
      settle tested
    | .background a => do
      let part ← aside do
        modify fun s => { s with input := [] }
        run files n false a
      rejoin part
      modify (·.withStatus 0)
    | .both a b => do
      run files n true a
      next do
        if (← get).status = 0 then run files n tested b
    | .either a b => do
      run files n true a
      next do
        if (← get).status ≠ 0 then run files n tested b
    | .not a => do
      run files n true a
      next (modify fun s => s.withStatus (if s.status = 0 then 1 else 0))
    | .choose condition yes no => do
      run files n true condition
      next do
        if (← get).status = 0 then run files n tested yes
        else
          Builtin.status 0
          run files n tested no
    | .loop whileTrue condition body => do
      modify fun s => { s with loops := s.loops + 1 }
      repeatBody files n tested whileTrue condition body 0
      modify fun s => { s with loops := s.loops - 1 }
    | .each var words body => do
      let values ← expand files n words
      Builtin.status 0
      modify fun s => { s with loops := s.loops + 1 }
      eachValue files n tested var body values
      modify fun s => { s with loops := s.loops - 1 }
    | .select subject patterns body rest => do
      let text ← expandWhole files n subject
      let matching ← patterns.anyM fun p => do
        return Pattern.matchesAll (Pattern.ofParts (← parts files n p)) text
      if matching then
        Builtin.status 0
        run files n tested body
      else
        match rest with
        | .nothing => Builtin.status 0
        | rest => run files n tested rest
    | .define name body =>
      modify fun s =>
        { s with functions := (name, body) :: s.functions.filter fun f => f.1 != name, status := 0 }
/-- Repeats the body of a loop. -/
def repeatBody (files : Files m) : Nat → Bool → Bool → Script → Script → Nat → Action m
  | 0, _, _, _, _, _ => fault
  | n + 1, tested, whileTrue, condition, body, last => do
    run files n true condition
    if ← goesOn then
      if ((← get).status == 0) == whileTrue then
        run files n tested body
        if ← goesOn then repeatBody files n tested whileTrue condition body (← get).status
      else Builtin.status last

/-- Runs the body of a loop for every value. -/
def eachValue (files : Files m) : Nat → Bool → String → Script → List String → Action m
  | 0, _, _, _, _ => fault
  | _ + 1, _, _, _, [] => pure ()
  | n + 1, tested, var, body, v :: vs => do
    modify (·.assign var v)
    run files n tested body
    if ← goesOn then eachValue files n tested var body vs

end

end GoldenTrace.Shell
