import GoldenTrace.CommandLine.Session
import GoldenTrace.Shell.Launch

/-!
# The program

Runs a session on the machine's files.
-/

namespace GoldenTrace

/-- The machine's files. -/
def machineFiles : Files IO where
  readFile path := do
    try
      return some (← IO.FS.readBinFile path).data.toList
    catch _ => return none
  writeFile path bytes := do
    try
      IO.FS.writeBinFile path ⟨bytes.toArray⟩
      return true
    catch _ => return false
  isDirectory path := do
    try
      (← IO.FS.realPath path).isDir
    catch _ => return false

/-- The machine's files, with the programs of the shell run on them. -/
def machine : Host IO :=
  { machineFiles with launch := Shell.launch machineFiles }

end GoldenTrace

def main (args : List String) : IO UInt32 := do
  let result ← GoldenTrace.CommandLine.session GoldenTrace.machine args
  (← IO.getStdout).putStr result.stdout
  match result.outcome with
  | .success => return 0
  | .failure _ =>
    (← IO.getStderr).putStr ((result.errorLine?.getD "") ++ "\n")
    return 1
  | .usage =>
    (← IO.getStderr).putStr GoldenTrace.CommandLine.helpText
    return 2
