/-!
# Calls of programs

The programs there are: the shell, `echo`, `printf`, `cat`, `true` and `false`,
by name or by their place among the system's programs.
-/

namespace GoldenTrace.Shell

def programs : List String :=
  ["sh", "echo", "printf", "cat", "true", "false"]

/-- The directories that hold programs. -/
def programDirectories : List String :=
  ["/bin/", "/usr/bin/"]

/-- The program a name or a path stands for. -/
def program? (s : String) : Option String :=
  programs.find? fun p => p == s || programDirectories.any fun d => d ++ p == s

/-- What a call of the shell is to run, and the letters of its options. -/
inductive Call where
  | text (options : List Char) (script zero : String) (params : List String)
  | file (options : List Char) (path : String) (params : List String)
  /-- The input. -/
  | input (options : List Char) (params : List String)
  /-- An option without what it asks for. -/
  | incomplete

namespace Call

/-- What the arguments after the options ask for. -/
def ofOperands (options : List Char) : List String → Call
  | [] => if options.contains 'c' then incomplete else input options []
  | arg :: rest =>
    if options.contains 'c' then
      match rest with
      | [] => text options arg "sh" []
      | zero :: params => text options arg zero params
    else if options.contains 's' then input options (arg :: rest)
    else file options arg rest

/-- What arguments of the shell ask for, after the given options. -/
def ofArgs (options : List Char) : List String → Call
  | [] => ofOperands options []
  | arg :: rest =>
    match arg.toList with
    | ['-'] | ['-', '-'] => ofOperands options rest
    | '-' :: letters => ofArgs (options ++ letters) rest
    | _ => ofOperands options (arg :: rest)

end Call

end GoldenTrace.Shell
