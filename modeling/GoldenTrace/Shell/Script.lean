/-!
# Scripts

A harness may be a script in the language of the system's shell: commands with
words, quoting and expansions, redirections and pipes, sequences, conditions,
selections, loops and functions.

Texts inside a word that are scripts or words themselves are kept as texts and
read when the word is expanded.
-/

namespace GoldenTrace.Shell

/-- A part of a word. Quoted parts are not cut into fields. -/
inductive Piece where
  | literal (s : List Char) (quoted : Bool)
  | parameter (name : String) (quoted : Bool)
  /-- A parameter with an operator and the operator's word. -/
  | modified (name operator : String) (operand : List Char) (quoted : Bool)
  /-- What a script prints. -/
  | command (text : List Char) (quoted : Bool)
  | arithmetic (text : List Char) (quoted : Bool)
  deriving DecidableEq

abbrev Word := List Piece

/-- What happens to a stream of a command. -/
inductive Redirection where
  | output (stream : Nat) (append : Bool) (file : Word)
  | input (file : Word)
  /-- The input is a text of the script. -/
  | document (text : Word)
  | duplicate (stream : Nat) (target : Option Nat)
  deriving DecidableEq

inductive Script where
  | nothing
  | simple (assignments : List (String × Word)) (words : List Word)
  | redirected (a : Script) (redirections : List Redirection)
  | sequence (a b : Script)
  /-- The output of the first is the input of the second. -/
  | pipe (a b : Script)
  /-- Run in a shell of its own. -/
  | apart (a : Script)
  /-- Run beside the rest. -/
  | background (a : Script)
  | both (a b : Script)
  | either (a b : Script)
  | not (a : Script)
  | choose (condition yes no : Script)
  /-- Repeat the body while the condition has the given truth. -/
  | loop (whileTrue : Bool) (condition body : Script)
  | each (var : String) (words : List Word) (body : Script)
  /-- The body if the subject matches a pattern, and otherwise the rest. -/
  | select (subject : Word) (patterns : List Word) (body rest : Script)
  | define (name : String) (body : Script)

end GoldenTrace.Shell
