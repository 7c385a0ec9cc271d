import GoldenTrace.Shell.Run

/-!
# Starting programs

The programs there are: the shell, `echo`, `printf`, `cat`, `true` and `false`,
by name or by their place among the system's programs. A file that is there but
is none of them may not be started.
-/

namespace GoldenTrace.Shell

inductive StartError where
  | notFound
  | permissionDenied
  | notADirectory
  | nameTooLong
  deriving DecidableEq

namespace StartError

/-- The system's words for a failed start. -/
def message : StartError → String
  | notFound => "No such file or directory (os error 2)"
  | permissionDenied => "Permission denied (os error 13)"
  | notADirectory => "Not a directory (os error 20)"
  | nameTooLong => "File name too long (os error 36)"

end StartError

variable {m : Type → Type} [Monad m]

/-- How many steps a program may take. -/
def patience : Nat := 1000000

/-- What a program leaves that runs as a script of its own. -/
def finished (body : Action m) (directory : Option String) : m (Exit × List UInt8) := do
  let ((), s) ← body.run (.initial directory "sh" [])
  return (s.exit, s.output)

/-- The paths that a path leads through, `passed` being what comes before it in
reverse. -/
def ancestors (passed : List Char) : List Char → List String
  | [] => []
  | c :: cs =>
    if c = '/' && !passed.isEmpty then String.ofList passed.reverse :: ancestors (c :: passed) cs
    else ancestors (c :: passed) cs

/-- The length, in bytes, from which a name is too long. -/
def tooLong : Nat := 256

/-- Why there is nothing at a path: a name of it may be too long, or one of those
it leads through a file. -/
def absence (files : Files m) (path : String) : m StartError := do
  if (segments (· == '/') path.toList).any fun s => tooLong ≤ (String.ofList s).utf8ByteSize then
    return .nameTooLong
  let blocked ← (ancestors [] path.toList).anyM fun p => do
    return (← files.readFile p).isSome
  return if blocked then .notADirectory else .notFound

/-- Why a program that is none of those there are cannot be started. A name
without a slash is looked for among the system's programs. There the names that
stand for directories are found, but cannot be started. -/
def startFailure (files : Files m) (directory : Option String) (name : String) : m StartError := do
  if !name.toList.contains '/' then
    return if name = "." || name = ".." then .permissionDenied
      else if tooLong ≤ name.utf8ByteSize + 1 then .nameTooLong
      else .notFound
  let path := (State.initial directory "" []).path name
  let there := (← files.readFile path).isSome || (← files.isDirectory path)
  if there then return .permissionDenied else absence files path

/-- Why a directory cannot be gone to; none if it can. -/
def directoryFailure (files : Files m) : Option String → m (Option StartError)
  | none => return none
  | some d => do
    if ← files.isDirectory d then return none
    else if (← files.readFile d).isSome then return some .notADirectory
    else return some (← absence files d)

/-- Starts a program in a directory. -/
def launch (files : Files m) : Launch m := fun directory name args => do
  match ← directoryFailure files directory with
  | some e => return .error e.message
  | none =>
    match program? name with
    | some "sh" => do return .ok (← finished (shell files patience args) directory)
    | some _ => do return .ok (← finished (program files patience name args) directory)
    | none => do return .error (← startFailure files directory name).message

end GoldenTrace.Shell
