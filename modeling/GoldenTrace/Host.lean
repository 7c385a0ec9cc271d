import GoldenTrace.Exit

/-!
# Hosts

What the command line needs from its surroundings: reading and writing files,
asking for directories and starting programs. A host is given as a record of
these actions, so the same program runs on the machine's files and on files held
in memory, and with any programs.
-/

namespace GoldenTrace

/-- The files that a program works on. They hold bytes, which need not be text. -/
structure Files (m : Type → Type) where
  /-- The contents of a file, if it can be read. -/
  readFile : String → m (Option (List UInt8))
  /-- Puts bytes into a file; false if it cannot be written. -/
  writeFile : String → List UInt8 → m Bool
  isDirectory : String → m Bool

/-- Starts a program in a directory with arguments and waits for its end. It has
ended in some way and has printed bytes, or it could not be started for a reason. -/
abbrev Launch (m : Type → Type) :=
  Option String → String → List String → m (Except String (Exit × List UInt8))

structure Host (m : Type → Type) extends Files m where
  launch : Launch m

end GoldenTrace
