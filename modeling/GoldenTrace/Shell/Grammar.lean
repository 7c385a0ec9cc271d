import GoldenTrace.Shell.Token

/-!
# The grammar of scripts

Commands are joined by separators, by `&&` and `||` and by pipes. Reserved words
begin loops, choices and selections and end their parts; they are reserved only
where a command may begin and only without quotes.
-/

namespace GoldenTrace.Shell.Grammar

/-- The text of a word without quotes and parameters. -/
def plain? : Word → Option String
  | [.literal s false] => some (String.ofList s)
  | _ => none

/-- Whether a token is the given reserved word. -/
def isReserved (name : String) : Token → Bool
  | .word w => plain? w == some name
  | _ => false

/-- Words that end a list of commands. -/
def closers : List String :=
  ["do", "done", "then", "elif", "else", "fi", "esac", "\x7d"]

/-- Whether a list of commands ends before this token. -/
def closes : Token → Bool
  | .word w =>
    match plain? w with
    | some s => closers.contains s
    | none => false
  | .doubleSemicolon | .closeParen => true
  | _ => false

def isSeparator : Token → Bool
  | .semicolon | .newline | .ampersand => true
  | _ => false

/-- Whether a token opens a command of several parts. -/
def opensCompound (t : Token) : Bool :=
  t == .openParen ||
    ["for", "while", "until", "if", "case", "\x7b"].any fun name => isReserved name t

/-- Takes one token of the given kind. -/
def expect (test : Token → Bool) : List Token → Option (List Token)
  | t :: ts => if test t then some ts else none
  | [] => none

/-- The name and the value of an assignment. -/
def assignment? : Word → Option (String × Word)
  | .literal s false :: rest =>
    let name := s.takeWhile Token.inName
    match s.dropWhile Token.inName, name with
    | '=' :: v, c :: _ =>
      if Token.startsName c then
        some (String.ofList name, (if v.isEmpty then [] else [.literal v false]) ++ rest)
      else none
    | _, _ => none
  | _ => none

/-- The redirection that a list of tokens begins with, and the rest; `some none`
if it begins with none. -/
def redirection? : List Token → Option (Option (Redirection × List Token))
  | .toFile stream append :: .word w :: ts => some (some (.output stream append w, ts))
  | .fromFile :: .word w :: ts => some (some (.input w, ts))
  | .toFile _ _ :: _ | .fromFile :: _ => none
  | .document w :: ts => some (some (.document w, ts))
  | .duplicate stream target :: ts => some (some (.duplicate stream target, ts))
  | _ => some none

/-- The redirections that a list of tokens begins with. -/
def readRedirections : Nat → List Token → Option (List Redirection × List Token)
  | 0, _ => none
  | n + 1, ts => do
    match ← redirection? ts with
    | none => return ([], ts)
    | some (r, rest) => do
      let (rs, rest) ← readRedirections n rest
      return (r :: rs, rest)

/-- A script with redirections around it. -/
def redirected (a : Script) (rs : List Redirection) : Script :=
  if rs.isEmpty then a else .redirected a rs

/-- The words of a command up to the next operator, and its redirections. -/
def readSimple : Nat → List (String × Word) → List Word → List Redirection → List Token →
    Option (Script × List Token)
  | 0, _, _, _, _ => none
  | n + 1, assignments, words, rs, .word w :: ts =>
    match words, assignment? w with
    | [], some a => readSimple n (assignments ++ [a]) [] rs ts
    | _, _ => readSimple n assignments (words ++ [w]) rs ts
  | n + 1, assignments, words, rs, ts => do
    match ← redirection? ts with
    | some (r, rest) => readSimple n assignments words (rs ++ [r]) rest
    | none =>
      if assignments.isEmpty && words.isEmpty && rs.isEmpty then none
      else return (redirected (.simple assignments words) rs, ts)

/-- Words up to a separator. -/
def readWords : List Token → List Word × List Token
  | .word w :: ts =>
    let (ws, rest) := readWords ts
    (w :: ws, rest)
  | ts => ([], ts)

/-- The patterns of a selection's arm, up to the closing parenthesis. -/
def readPatterns : List Token → Option (List Word × List Token)
  | .word w :: .pipe :: ts => do
    let (ws, rest) ← readPatterns ts
    return (w :: ws, rest)
  | .word w :: .closeParen :: ts => some ([w], ts)
  | _ => none

/-- Every positional parameter, which is what a loop without words goes over. -/
def everyParameter : List Word :=
  [[.parameter "@" true]]

mutual

/-- Commands up to a token that closes the list. -/
def readList : Nat → List Token → Option (Script × List Token)
  | 0, _ => none
  | n + 1, ts =>
    match ts.dropWhile (· == .newline) with
    | [] => some (.nothing, [])
    | t :: ts =>
      if closes t then some (.nothing, t :: ts)
      else do
        let (a, rest) ← readJoined n (t :: ts)
        match rest with
        | [] => return (a, [])
        | t :: rest =>
          if isSeparator t then do
            let (b, rest) ← readList n rest
            return (.sequence (if t = .ampersand then .background a else a) b, rest)
          else if closes t then return (a, t :: rest)
          else none

/-- Commands up to a token that closes the list, at least one. -/
def readBody : Nat → List Token → Option (Script × List Token)
  | 0, _ => none
  | n + 1, ts =>
    match readList n ts with
    | some (.nothing, _) => none
    | answer => answer

/-- Commands joined by `&&` and `||`, which group to the left. -/
def readJoined : Nat → List Token → Option (Script × List Token)
  | 0, _ => none
  | n + 1, ts => do
    let (a, rest) ← readNegated n ts
    readJoinedOnto n a rest

/-- What is joined to a command. -/
def readJoinedOnto : Nat → Script → List Token → Option (Script × List Token)
  | 0, _, _ => none
  | n + 1, a, .andIf :: ts => do
    let (b, rest) ← readNegated n (ts.dropWhile (· == .newline))
    readJoinedOnto n (.both a b) rest
  | n + 1, a, .orIf :: ts => do
    let (b, rest) ← readNegated n (ts.dropWhile (· == .newline))
    readJoinedOnto n (.either a b) rest
  | _ + 1, a, ts => some (a, ts)

/-- Commands joined by pipes, which may be negated. -/
def readNegated : Nat → List Token → Option (Script × List Token)
  | 0, _ => none
  | _ + 1, [] => none
  | n + 1, t :: ts =>
    if isReserved "!" t then do
      let (a, rest) ← readNegated n ts
      return (.not a, rest)
    else readPiped n (t :: ts)

/-- Commands joined by pipes. -/
def readPiped : Nat → List Token → Option (Script × List Token)
  | 0, _ => none
  | n + 1, ts => do
    let (a, rest) ← readCommand n ts
    match rest with
    | .pipe :: rest => do
      let (b, rest) ← readPiped n (rest.dropWhile (· == .newline))
      return (.pipe a b, rest)
    | rest => return (a, rest)

def readCommand : Nat → List Token → Option (Script × List Token)
  | 0, _ => none
  | _ + 1, [] => none
  | n + 1, t :: ts =>
    match t, ts with
    | .word w, .openParen :: .closeParen :: body => do
      let name ← plain? w
      let (a, rest) ← readCommand n (body.dropWhile (· == .newline))
      return (.define name a, rest)
    | _, _ =>
      if opensCompound t then do
        let (a, rest) ← readCompound n t ts
        let (rs, rest) ← readRedirections n rest
        return (redirected a rs, rest)
      else if closes t then none
      else readSimple n [] [] [] (t :: ts)

/-- A command of several parts, after the token that opens it. -/
def readCompound : Nat → Token → List Token → Option (Script × List Token)
  | 0, _, _ => none
  | n + 1, t, ts =>
    if isReserved "for" t then readFor n ts
    else if isReserved "while" t then readRepeat n true ts
    else if isReserved "until" t then readRepeat n false ts
    else if isReserved "if" t then readIf n ts
    else if isReserved "case" t then readCase n ts
    else if isReserved "\x7b" t then do
      let (a, rest) ← readBody n ts
      return (a, ← expect (isReserved "\x7d") rest)
    else do
      let (a, rest) ← readBody n ts
      return (.apart a, ← expect (· == .closeParen) rest)

/-- A loop after its `while` or `until`. -/
def readRepeat : Nat → Bool → List Token → Option (Script × List Token)
  | 0, _, _ => none
  | n + 1, whileTrue, ts => do
    let (condition, rest) ← readBody n ts
    let rest ← expect (isReserved "do") rest
    let (body, rest) ← readBody n rest
    return (.loop whileTrue condition body, ← expect (isReserved "done") rest)

/-- A loop after its `for`. -/
def readFor : Nat → List Token → Option (Script × List Token)
  | 0, _ => none
  | n + 1, .word w :: ts => do
    let var ← plain? w
    let (words, rest) := match ts.dropWhile (· == .newline) with
      | t :: more => if isReserved "in" t then readWords more else (everyParameter, t :: more)
      | [] => (everyParameter, [])
    let rest ← expect (isReserved "do") (rest.dropWhile isSeparator)
    let (body, rest) ← readBody n rest
    return (.each var words body, ← expect (isReserved "done") rest)
  | _ + 1, _ => none

/-- A choice after its `if` or `elif`. -/
def readIf : Nat → List Token → Option (Script × List Token)
  | 0, _ => none
  | n + 1, ts => do
    let (condition, rest) ← readBody n ts
    let rest ← expect (isReserved "then") rest
    let (yes, rest) ← readBody n rest
    match rest with
    | [] => none
    | t :: rest =>
      if isReserved "fi" t then return (.choose condition yes .nothing, rest)
      else if isReserved "elif" t then do
        let (no, rest) ← readIf n rest
        return (.choose condition yes no, rest)
      else if isReserved "else" t then do
        let (no, rest) ← readBody n rest
        return (.choose condition yes no, ← expect (isReserved "fi") rest)
      else none

/-- A selection after its `case`. -/
def readCase : Nat → List Token → Option (Script × List Token)
  | 0, _ => none
  | n + 1, .word subject :: ts => do
    let rest ← expect (isReserved "in") (ts.dropWhile (· == .newline))
    readArms n subject rest
  | _ + 1, _ => none

/-- The arms of a selection. -/
def readArms : Nat → Word → List Token → Option (Script × List Token)
  | 0, _, _ => none
  | n + 1, subject, ts =>
    match ts.dropWhile (· == .newline) with
    | [] => none
    | t :: ts =>
      if isReserved "esac" t then some (.nothing, ts)
      else do
        let ts := if t = .openParen then ts else t :: ts
        let (patterns, rest) ← readPatterns ts
        let (body, rest) ← readList n rest
        let rest := match rest with
          | .doubleSemicolon :: more => more
          | more => more
        let (others, rest) ← readArms n subject rest
        return (.select subject patterns body others, rest)

end

/-- The script a text is. Reading goes at most a few levels deeper for every
token, which `fuel` allows for. -/
def parse (text : List Char) : Option Script := do
  let tokens ← Token.ofText text
  match ← readList (10 * tokens.length + 10) tokens with
  | (script, []) => return script
  | (_, _ :: _) => none

end GoldenTrace.Shell.Grammar
