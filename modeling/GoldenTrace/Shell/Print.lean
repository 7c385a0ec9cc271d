import GoldenTrace.Exit
import GoldenTrace.Text.Utf8

/-!
# Printing commands

`echo` prints its arguments with a space between, `printf` prints after a
format. The two come in two dialects: as commands of the shell and as programs
of their own. In a shell `echo` replaces escapes; as a program it does not.
-/

namespace GoldenTrace.Shell

/-- What a command answers: how it ends and what it prints. -/
structure Answer where
  status : Nat
  output : List UInt8

namespace Print

def bytes (cs : List Char) : List UInt8 :=
  Text.encode (String.ofList cs)

def byteOf (n : Nat) : UInt8 :=
  UInt8.ofNat n

/-- The character that a backslash and one letter stand for. -/
def escape? : Char → Option Nat
  | 'a' => some 7
  | 'b' => some 8
  | 't' => some 9
  | 'n' => some 10
  | 'v' => some 11
  | 'f' => some 12
  | 'r' => some 13
  | '\\' => some 92
  | _ => none

def isOctal (c : Char) : Bool :=
  '0' ≤ c && c ≤ '7'

/-- The value of a run of octal digits. -/
def octal (cs : List Char) : Nat :=
  cs.foldl (fun n c => n * 8 + (c.toNat - 48)) 0

/-- The leading characters that pass a test, at most `n` of them, and the rest. -/
def takeUpTo (test : Char → Bool) (n : Nat) (cs : List Char) : List Char × List Char :=
  let taken := (cs.take n).takeWhile test
  (taken, cs.drop taken.length)

/-- Reads the escape after a backslash. In arguments octal digits come after a
zero, in formats they need none. The result is none for `\c`, which ends all
output. -/
def readEscape (inFormat : Bool) : List Char → Option (List UInt8 × List Char)
  | [] => some ([92], [])
  | c :: cs =>
    match escape? c with
    | some n => some ([byteOf n], cs)
    | none =>
      if c = 'c' && !inFormat then none
      else if c = '0' && !inFormat then
        let (ds, rest) := takeUpTo isOctal 3 cs
        some ([byteOf (octal ds)], rest)
      else if isOctal c then
        let (ds, rest) := takeUpTo isOctal 3 (c :: cs)
        some ([byteOf (octal ds)], rest)
      else some (92 :: bytes [c], cs)

/-- Replaces the escapes of an argument; the flag tells whether output goes on
after it. -/
def unescape : Nat → List Char → List UInt8 × Bool
  | 0, _ => ([], true)
  | _ + 1, [] => ([], true)
  | n + 1, '\\' :: cs =>
    match readEscape false cs with
    | none => ([], false)
    | some (bs, rest) =>
      let (more, goesOn) := unescape n rest
      (bs ++ more, goesOn)
  | n + 1, c :: cs =>
    let (more, goesOn) := unescape n cs
    (bytes [c] ++ more, goesOn)

/-- The arguments of `echo` as one text. -/
def joined (args : List String) : List Char :=
  (" ".intercalate args).toList

/-- `echo` as a command of the shell. -/
def shellEcho (args : List String) : Answer :=
  let (newline, args) := match args with
    | "-n" :: rest => (false, rest)
    | _ => (true, args)
  let text := joined args
  let (bs, goesOn) := unescape (text.length + 1) text
  ⟨0, bs ++ if newline && goesOn then [10] else []⟩

/-- How `echo` prints as a program. -/
structure EchoStyle where
  newline : Bool
  escapes : Bool

/-- The options of `echo` as a program, none for an argument that is none. -/
def echoOption? (arg : String) : Option (List Char) :=
  match arg.toList with
  | '-' :: c :: cs =>
    if (c :: cs).all fun x => x == 'n' || x == 'e' || x == 'E' then some (c :: cs) else none
  | _ => none

/-- The style after one option letter. -/
def EchoStyle.after (style : EchoStyle) (c : Char) : EchoStyle :=
  if c = 'n' then { style with newline := false } else { style with escapes := c == 'e' }

/-- `echo` as a program, with the style that options before have set. -/
def echoIn (style : EchoStyle) : List String → Answer
  | [] => echoText style []
  | arg :: rest =>
    match echoOption? arg with
    | some letters => echoIn (letters.foldl EchoStyle.after style) rest
    | none => echoText style (arg :: rest)
where
  echoText (style : EchoStyle) (args : List String) : Answer :=
    let text := joined args
    let (bs, goesOn) :=
      if style.escapes then unescape (text.length + 1) text else (bytes text, true)
    ⟨0, bs ++ if style.newline && goesOn then [10] else []⟩

def programEcho (args : List String) : Answer :=
  echoIn ⟨true, false⟩ args

/-- A number that an argument writes, and whether that is all it writes. -/
structure Numeral where
  value : Int
  complete : Bool

/-- The value of the leading digits of a base, and whether they are all. -/
def leadingDigits (base : Nat) (cs : List Char) : Nat × Bool :=
  let ds := cs.takeWhile fun c => (Text.digitValue? c).any (· < base)
  ((Text.readDigits base ds).getD 0, ds.length == cs.length && !ds.isEmpty)

/-- A natural number in base sixteen after `0x`, in base eight after a zero, and
otherwise in base ten. -/
def readUnsigned (cs : List Char) : Nat × Bool :=
  match Text.afterHexMark cs with
  | some ds =>
    if (ds.head?.bind Text.digitValue?).any (· < 16) then leadingDigits 16 ds else (0, false)
  | none => leadingDigits (if cs.head? = some '0' then 8 else 10) cs

/-- The number of an argument, zero if it writes none. A quote stands for the
code of the character after it. An empty argument is zero. -/
def number (s : String) : Numeral :=
  match s.toList with
  | [] => ⟨0, true⟩
  | '\x27' :: c :: cs | '\x22' :: c :: cs => ⟨c.toNat, cs.isEmpty⟩
  | '-' :: cs => ⟨-((readUnsigned cs).1 : Int), (readUnsigned cs).2⟩
  | '+' :: cs => ⟨(readUnsigned cs).1, (readUnsigned cs).2⟩
  | cs => ⟨(readUnsigned cs).1, (readUnsigned cs).2⟩

/-- The number of an argument, zero for an argument that is not there. -/
def numberOf : Option String → Numeral
  | none => ⟨0, true⟩
  | some s => number s

/-- What a part of a format prints, whether output goes on after it, and whether
every argument was of the kind asked for. -/
structure Printed where
  output : List UInt8
  goesOn : Bool
  clean : Bool

/-- A negative number as the word of 64 bits that stands for it. -/
def word (n : Int) : Nat :=
  (n % 0x10000000000000000).toNat

/-- A conversion of a format: what stands between the percent sign and the
letter, and the letter. -/
structure Directive where
  flags : List Char
  width : Nat
  precision : Option Nat
  letter : Char

def isFlag (c : Char) : Bool :=
  c == '-' || c == '+' || c == ' ' || c == '#' || c == '0'

/-- Reads a conversion after its percent sign. -/
def readDirective (cs : List Char) : Option (Directive × List Char) :=
  let flags := cs.takeWhile isFlag
  let afterFlags := cs.dropWhile isFlag
  let width := (Text.readDigits 10 (afterFlags.takeWhile Char.isDigit)).getD 0
  let (precision, rest) := match afterFlags.dropWhile Char.isDigit with
    | '.' :: rest =>
      (some ((Text.readDigits 10 (rest.takeWhile Char.isDigit)).getD 0), rest.dropWhile Char.isDigit)
    | rest => (none, rest)
  match rest with
  | letter :: rest => some (⟨flags, width, precision, letter⟩, rest)
  | [] => none

namespace Directive

/-- Fills bytes up to the width of a conversion with spaces. -/
def fill (d : Directive) (bs : List UInt8) : List UInt8 :=
  let spaces := List.replicate (d.width - bs.length) 32
  if d.flags.contains '-' then bs ++ spaces else spaces ++ bs

/-- Lays out a number after its sign or mark. -/
def layOut (d : Directive) (mark digits : List Char) : List UInt8 :=
  let digits := List.replicate (d.precision.getD 1 - digits.length) '0' ++ digits
  let zeros :=
    if d.flags.contains '0' && !d.flags.contains '-' && d.precision.isNone then
      List.replicate (d.width - mark.length - digits.length) '0'
    else []
  d.fill (bytes (mark ++ zeros ++ digits))

/-- The sign of a number, which may be a space for one that is not negative. -/
def sign (d : Directive) (n : Int) : List Char :=
  if n < 0 then ['-']
  else if d.flags.contains '+' then ['+']
  else if d.flags.contains ' ' then [' ']
  else []

/-- The mark of a base. -/
def mark (d : Directive) (n : Int) (text : String) : List Char :=
  if d.flags.contains '#' && n != 0 then text.toList else []

/-- What a conversion prints for an argument, none if it is not known. -/
def print (d : Directive) (arg : Option String) : Option Printed :=
  let text := arg.getD ""
  let n := numberOf arg
  let number (mark digits : List Char) : Option Printed :=
    some ⟨d.layOut mark digits, true, n.complete⟩
  match d.letter with
  | 's' =>
    let bs := Text.encode text
    some ⟨d.fill (bs.take (d.precision.getD bs.length)), true, true⟩
  | 'b' =>
    let (bs, goesOn) := unescape (text.length + 1) text.toList
    some ⟨if goesOn then d.fill bs else bs, goesOn, true⟩
  | 'c' => some ⟨d.fill ((Text.encode text).take 1), true, true⟩
  | 'd' | 'i' => number (d.sign n.value) (Text.decimal n.value.natAbs)
  | 'u' => number [] (Text.decimal (word n.value))
  | 'x' => number (d.mark n.value "0x") ((Text.digits 16 (word n.value)).map Char.toLower)
  | 'X' => number (d.mark n.value "0X") (Text.digits 16 (word n.value))
  | 'o' => number (d.mark n.value "0") (Text.digits 8 (word n.value))
  | _ => none

end Directive

/-- Puts bytes in front of what is printed. -/
def Printed.after (bs : List UInt8) (p : Printed) : Printed :=
  { p with output := bs ++ p.output }

/-- One pass over a format. The result is what was printed and the arguments
left; none for a conversion that is not known. -/
def pass : Nat → List Char → List String → Option (Printed × List String)
  | 0, _, args => some (⟨[], true, true⟩, args)
  | _ + 1, [], args => some (⟨[], true, true⟩, args)
  | n + 1, '\\' :: cs, args =>
    match readEscape true cs with
    | none => some (⟨[], false, true⟩, args)
    | some (bs, rest) => do
      let (more, args) ← pass n rest args
      return (more.after bs, args)
  | n + 1, '%' :: '%' :: cs, args => do
    let (more, args) ← pass n cs args
    return (more.after [37], args)
  | n + 1, '%' :: cs, args => do
    let (directive, rest) ← readDirective cs
    let p ← directive.print args.head?
    if p.goesOn then do
      let (more, args) ← pass n rest args.tail
      return ({ more.after p.output with clean := p.clean && more.clean }, args)
    else return (p, args.tail)
  | n + 1, c :: cs, args => do
    let (more, args) ← pass n cs args
    return (more.after (bytes [c]), args)

/-- Passes over a format as long as that uses up arguments. -/
def passes : Nat → List Char → List String → Answer
  | 0, _, _ => ⟨0, []⟩
  | n + 1, format, args =>
    match pass (format.length + 1) format args with
    | none => ⟨1, []⟩
    | some (p, rest) =>
      let status := if p.clean then 0 else 1
      if !p.goesOn || rest.isEmpty || rest.length = args.length then ⟨status, p.output⟩
      else
        let more := passes n format rest
        ⟨if p.clean then more.status else 1, p.output ++ more.output⟩

def printf : List String → Answer
  | [] => ⟨2, []⟩
  | "--" :: format :: args => passes (args.length + 1) format.toList args
  | format :: args => passes (args.length + 1) format.toList args

end Print

end GoldenTrace.Shell
