import GoldenTrace.Text.Numeral

/-!
# How programs end

A program ends with an exit status or is ended by a signal. Status zero is
success.
-/

namespace GoldenTrace

inductive Exit where
  | status (n : Nat)
  | signal (n : Nat)
  deriving DecidableEq

/-- The names of signals, in the order of their numbers from one. -/
def signalNames : List String :=
  ["HUP", "INT", "QUIT", "ILL", "TRAP", "ABRT", "BUS", "FPE", "KILL", "USR1", "SEGV", "USR2",
    "PIPE", "ALRM", "TERM", "STKFLT", "CHLD", "CONT", "STOP", "TSTP", "TTIN", "TTOU", "URG",
    "XCPU", "XFSZ", "VTALRM", "PROF", "WINCH", "IO", "PWR", "SYS"]

/-- The name of a signal in parentheses, if it has one. -/
def signalSuffix (n : Nat) : String :=
  match n with
  | 0 => ""
  | n + 1 =>
    match signalNames[n]? with
    | some name => " (SIG" ++ name ++ ")"
    | none => ""

namespace Exit

def success (e : Exit) : Bool :=
  e == status 0

def message : Exit → String
  | status n => "exit status: " ++ String.ofList (Text.decimal n)
  | signal n => "signal: " ++ String.ofList (Text.decimal n) ++ signalSuffix n

def code : Exit → Nat
  | status n => n
  | signal n => 128 + n

end Exit

end GoldenTrace
