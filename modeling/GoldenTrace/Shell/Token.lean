import GoldenTrace.Segments
import GoldenTrace.Shell.Script

/-!
# Tokens of scripts

A script is cut into words and operators. Quotes keep blanks and operators in
words; within double quotes parameters and commands are still expanded. A text
for the input of a command stands after the line that asks for it, and is taken
out of the script where it is asked for.
-/

namespace GoldenTrace.Shell

inductive Token where
  | word (w : Word)
  | semicolon
  | doubleSemicolon
  | newline
  | ampersand
  | andIf
  | orIf
  | pipe
  | openParen
  | closeParen
  /-- Output to the file named by the next word. -/
  | toFile (stream : Nat) (append : Bool)
  /-- Input from the file named by the next word. -/
  | fromFile
  | document (w : Word)
  | duplicate (stream : Nat) (target : Option Nat)
  deriving DecidableEq

namespace Token

def isBlank (c : Char) : Bool :=
  c == ' ' || c == '\t'

/-- Characters that end an unquoted word. -/
def endsWord (c : Char) : Bool :=
  isBlank c || c == '\n' || c == ';' || c == '&' || c == '|' || c == '(' || c == ')' ||
    c == '<' || c == '>'

def startsName (c : Char) : Bool :=
  c.isAlpha || c == '_'

def inName (c : Char) : Bool :=
  c.isAlphanum || c == '_'

/-- Parameters whose names are no letters. -/
def isSpecial (c : Char) : Bool :=
  c == '@' || c == '*' || c == '#' || c == '?' || c == '$' || c == '!' || c == '-'

/-- Where a word is read. -/
inductive Context where
  /-- Among the commands of a script. -/
  | plain
  /-- Up to a double quote. -/
  | double
  /-- A whole text in which quotes are no quotes. -/
  | document
  /-- A whole text in which blanks do not end words. -/
  | operand
  deriving DecidableEq

namespace Context

def quotes : Context → Bool
  | plain | operand => true
  | double | document => false

/-- Whether what is read is quoted. -/
def isQuoted (c : Context) : Bool :=
  !c.quotes

/-- Whether a backslash before a character is dropped. -/
def escapes (c : Context) (x : Char) : Bool :=
  c.quotes || x == '$' || x == '\\' || x == '\x60' || (c == double && x == '\x22')

end Context

/-- Puts a character in front of a word, joining it to a literal of its kind. -/
def glue (c : Char) (quoted : Bool) : Word → Word
  | .literal s q :: rest =>
    if q = quoted then .literal (c :: s) q :: rest else .literal [c] quoted :: .literal s q :: rest
  | w => .literal [c] quoted :: w

/-- Reads up to the bracket that closes `depth + 1` open ones. Brackets in quotes
do not count. -/
def balanced (opening closing : Char) : Nat → Nat → List Char → Option (List Char × List Char)
  | 0, _, _ => none
  | _ + 1, _, [] => none
  | n + 1, depth, '\\' :: c :: cs => do
    let (inside, rest) ← balanced opening closing n depth cs
    return ('\\' :: c :: inside, rest)
  | n + 1, depth, '\x27' :: cs => do
    let quoted := cs.takeWhile (· != '\x27')
    let (inside, rest) ← balanced opening closing n depth (cs.drop (quoted.length + 1))
    return ('\x27' :: quoted ++ '\x27' :: inside, rest)
  | n + 1, depth, c :: cs =>
    if c = closing then
      match depth with
      | 0 => some ([], cs)
      | d + 1 => do
        let (inside, rest) ← balanced opening closing n d cs
        return (c :: inside, rest)
    else do
      let (inside, rest) ← balanced opening closing n (if c = opening then depth + 1 else depth) cs
      return (c :: inside, rest)

/-- The operators on parameters, each before those it begins with. -/
def operators : List String :=
  [":-", ":=", ":+", ":?", "-", "=", "+", "?", "##", "#", "%%", "%"]

/-- The name that a text begins with, and the rest. -/
def leadingName : List Char → Option (String × List Char)
  | [] => none
  | c :: cs =>
    if startsName c then
      some (String.ofList (c :: cs.takeWhile inName), cs.dropWhile inName)
    else if c.isDigit then
      some (String.ofList (c :: cs.takeWhile Char.isDigit), cs.dropWhile Char.isDigit)
    else if isSpecial c then some (c.toString, cs)
    else none

/-- The expansion of a parameter in braces. -/
def braced (quoted : Bool) (inside : List Char) : Option Piece :=
  match inside with
  | ['#'] => some (.parameter "#" quoted)
  | '#' :: cs => do
    let (name, rest) ← leadingName cs
    if rest.isEmpty then some (.modified name "length" [] quoted) else none
  | cs => do
    let (name, rest) ← leadingName cs
    if rest.isEmpty then some (.parameter name quoted)
    else
      let op ← operators.find? fun o => o.toList.isPrefixOf rest
      return .modified name op (rest.drop op.length) quoted

/-- The expansion after a dollar sign, and the rest; `some none` for a dollar
sign that stands for itself. -/
def dollar (quoted : Bool) (cs : List Char) : Option (Option (Piece × List Char)) :=
  match cs with
  | '\x7b' :: cs => do
    let (inside, rest) ← balanced '\x7b' '\x7d' (cs.length + 1) 0 cs
    return some (← braced quoted inside, rest)
  | '(' :: cs => do
    let (inside, rest) ← balanced '(' ')' (cs.length + 1) 0 cs
    match inside.head?, inside.getLast? with
    | some '(', some ')' => return some (.arithmetic inside.tail.dropLast quoted, rest)
    | _, _ => return some (.command inside quoted, rest)
  | c :: cs =>
    if startsName c then
      some (some (.parameter (String.ofList (c :: cs.takeWhile inName)) quoted, cs.dropWhile inName))
    else if c.isDigit || isSpecial c then some (some (.parameter c.toString quoted, cs))
    else some none
  | [] => some none

/-- The script between backquotes, and the rest. -/
def backquoted : List Char → Option (List Char × List Char)
  | [] => none
  | '\x60' :: cs => some ([], cs)
  | '\\' :: c :: cs => do
    let (inside, rest) ← backquoted cs
    return (if c = '\x60' || c = '\\' || c = '$' then (c :: inside, rest)
      else ('\\' :: c :: inside, rest))
  | c :: cs => do
    let (inside, rest) ← backquoted cs
    return (c :: inside, rest)

/-- Reads a word up to where it ends. -/
def readWord : Nat → Context → List Char → Option (Word × List Char)
  | 0, _, _ => none
  | _ + 1, context, [] => if context = .double then none else some ([], [])
  | n + 1, context, c :: cs =>
    let quoted := context.isQuoted
    if context = .double && c = '\x22' then some ([.literal [] true], cs)
    else if context = .plain && endsWord c then some ([], c :: cs)
    else if context.quotes && c = '\x27' then
      match cs.dropWhile (· != '\x27') with
      | [] => none
      | _ :: rest => do
        let (w, rest) ← readWord n context rest
        return (.literal (cs.takeWhile (· != '\x27')) true :: w, rest)
    else if context.quotes && c = '\x22' then do
      let (inner, rest) ← readWord n .double cs
      let (w, rest) ← readWord n context rest
      return (inner ++ w, rest)
    else if c = '\\' then
      match cs with
      | [] => some ([.literal ['\\'] quoted], [])
      | x :: cs => do
        let (w, rest) ← readWord n context cs
        return (if x = '\n' then w
          else if context.escapes x then glue x true w
          else glue '\\' quoted (glue x quoted w), rest)
    else if c = '$' then do
      match ← dollar quoted cs with
      | some (piece, rest) => do
        let (w, rest) ← readWord n context rest
        return (piece :: w, rest)
      | none => do
        let (w, rest) ← readWord n context cs
        return (glue '$' quoted w, rest)
    else if c = '\x60' then do
      let (inside, rest) ← backquoted cs
      let (w, rest) ← readWord n context rest
      return (.command inside quoted :: w, rest)
    else do
      let (w, rest) ← readWord n context cs
      return (glue c quoted w, rest)

/-- Reads a whole text as one word. -/
def readText (context : Context) (cs : List Char) : Option Word := do
  let (w, _) ← readWord (cs.length + 2) context cs
  return w

def hasQuotes (w : Word) : Bool :=
  w.any fun
    | .literal _ quoted => quoted
    | _ => false

def literals (w : Word) : List Char :=
  w.flatMap fun
    | .literal s _ => s
    | _ => []

/-- The lines up to one that is `mark`, and the lines after it. -/
def upToMark (mark : List Char) (tabs : Bool) :
    List (List Char) → List (List Char) × List (List Char)
  | [] => ([], [])
  | line :: rest =>
    let line := if tabs then line.dropWhile (· == '\t') else line
    if line = mark then ([], rest)
    else
      let (body, after) := upToMark mark tabs rest
      (line :: body, after)

/-- Lines as a text, each with its line feed. -/
def unlines (lines : List (List Char)) : List Char :=
  lines.flatMap fun l => l ++ ['\n']

/-- Takes the text that a command asks for out of what comes after `<<`. The
result is the text as a word, and what is left of the script. -/
def takeDocument (cs : List Char) : Option (Word × List Char) := do
  let (tabs, cs) := match cs with
    | '-' :: cs => (true, cs)
    | cs => (false, cs)
  let (mark, rest) ← readWord (cs.length + 2) .plain (cs.dropWhile isBlank)
  let line := rest.takeWhile (· != '\n')
  let (body, after) := upToMark (literals mark) tabs
    (segments (· == '\n') (rest.drop (line.length + 1)))
  let text := unlines body
  let w ← if hasQuotes mark then some [.literal text true] else readText .document text
  return (w, line ++ '\n' :: ['\n'].intercalate after)

/-- The redirection of an output after its `>`. -/
def output (stream : Nat) : List Char → Token × List Char
  | '>' :: cs => (toFile stream true, cs)
  | '|' :: cs => (toFile stream false, cs)
  | '&' :: '-' :: cs => (duplicate stream none, cs)
  | '&' :: d :: cs =>
    if d.isDigit then (duplicate stream (some (d.toNat - 48)), cs)
    else (toFile stream false, d :: cs)
  | cs => (toFile stream false, cs)

/-- Reads the tokens of a script. Every step takes at least one character, and
the fuel is more than there are. -/
def readAll : Nat → List Char → Option (List Token)
  | 0, _ => none
  | _ + 1, [] => some []
  | n + 1, '\n' :: cs => (newline :: ·) <$> readAll n cs
  | n + 1, '#' :: cs => readAll n (cs.dropWhile (· != '\n'))
  | n + 1, '\\' :: '\n' :: cs => readAll n cs
  | n + 1, ';' :: ';' :: cs => (doubleSemicolon :: ·) <$> readAll n cs
  | n + 1, ';' :: cs => (semicolon :: ·) <$> readAll n cs
  | n + 1, '&' :: '&' :: cs => (andIf :: ·) <$> readAll n cs
  | n + 1, '&' :: cs => (ampersand :: ·) <$> readAll n cs
  | n + 1, '|' :: '|' :: cs => (orIf :: ·) <$> readAll n cs
  | n + 1, '|' :: cs => (pipe :: ·) <$> readAll n cs
  | n + 1, '(' :: cs => (openParen :: ·) <$> readAll n cs
  | n + 1, ')' :: cs => (closeParen :: ·) <$> readAll n cs
  | n + 1, '>' :: cs =>
    let (t, rest) := output 1 cs
    (t :: ·) <$> readAll n rest
  | n + 1, '<' :: '<' :: cs => do
    let (w, rest) ← takeDocument cs
    (document w :: ·) <$> readAll n rest
  | n + 1, '<' :: '&' :: _ :: cs => readAll n cs
  | n + 1, '<' :: cs => (fromFile :: ·) <$> readAll n cs
  | n + 1, c :: cs =>
    if isBlank c then readAll n cs
    else
      match c.isDigit, cs with
      | true, '>' :: rest =>
        let (t, rest) := output (c.toNat - 48) rest
        (t :: ·) <$> readAll n rest
      | _, _ => do
        let (w, rest) ← readWord (cs.length + 3) .plain (c :: cs)
        (word w :: ·) <$> readAll n rest

/-- The tokens of a script, if its quotes are closed. Taking out a text may add
one line feed to the script. -/
def ofText (cs : List Char) : Option (List Token) :=
  readAll (2 * cs.length + 2) cs

end Token

end GoldenTrace.Shell
