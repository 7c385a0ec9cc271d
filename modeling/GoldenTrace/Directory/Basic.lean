import GoldenTrace.Host
import GoldenTrace.Segments
import GoldenTrace.Text.Utf8

/-!
# Files in memory

A directory is held in memory as a list of files by place and a list of
directories, which may be empty. The directories that a file or a directory is
in are there with it. Outside of it there are the directories above it and some
directories of the system, which are empty but for the null device.

A place is a list of names from the directory. One that begins with steps up or
with the root is outside.
-/

namespace GoldenTrace

/-- Files by place, with the bytes in them, and the places of directories. -/
structure Directory where
  files : List (List String × List UInt8)
  directories : List (List String)

namespace Directory

/-- The place where absolute paths begin. -/
def root : List String := ["/"]

def nullDevice : List String := ["/", "dev", "null"]

/-- Directories that every system has. -/
def systemDirectories : List (List String) :=
  [root, ["/", "bin"], ["/", "dev"], ["/", "etc"], ["/", "tmp"], ["/", "usr"],
    ["/", "usr", "bin"], ["/", "var"]]

/-- Whether a place is the directory itself or one above it. -/
def isAbove (place : List String) : Bool :=
  place.all (· == "..")

def names (path : String) : List String :=
  (segments (· == '/') path.toList).map String.ofList

/-- A directory with the given texts, each by its path from the directory, and no empty
directories. -/
def ofList (files : List (String × String)) : Directory where
  files := (nullDevice, []) ::
    files.map fun (path, text) =>
      ((names path).filter fun s => s ≠ "" ∧ s ≠ ".", Text.encode text)
  directories := []

def get? (d : Directory) (place : List String) : Option (List UInt8) :=
  (d.files.find? fun f => f.1 == place).map (·.2)

def hasDirectory (d : Directory) (place : List String) : Bool :=
  isAbove place || systemDirectories.contains place || d.directories.any place.isPrefixOf ||
    d.files.any fun f => place.isPrefixOf f.1 && place.length < f.1.length

/-- The directory with one file's contents replaced or the file added. -/
def put (d : Directory) (place : List String) (bytes : List UInt8) : Directory :=
  { d with files := (place, bytes) :: d.files.filter fun f => f.1 != place }

/-- The longest name that a file may have, in bytes. -/
def longestName : Nat := 255

def above (place : List String) : List String :=
  if place = root then root
  else if isAbove place then place ++ [".."]
  else place.dropLast

/-- One step from a place. Only a directory can be stepped out of, even by a step
up or by none. -/
def step (d : Directory) (place : List String) (s : String) : Option (List String) :=
  if !d.hasDirectory place || longestName < s.utf8ByteSize then none
  else if s = "" ∨ s = "." then some place
  else if s = ".." then some (above place)
  else some (place ++ [s])

/-- The place a path leads to, where a file may be or not be. None for a path
through what is no directory. -/
def resolve (d : Directory) (path : String) : Option (List String) :=
  if path.isEmpty then none
  else (names path).foldlM d.step (if path.startsWith "/" then root else [])

/-- The bytes of the file that a path leads to, if there is one. -/
def contents (d : Directory) (path : String) : Option (List UInt8) :=
  (d.resolve path).bind d.get?

def read (d : Directory) (path : String) : Option String :=
  (d.contents path).map Text.decodeLossy

/-- The directory with a file written, if the path leads to a place for one. The null device is no
such place. -/
def write (d : Directory) (path : String) (bytes : List UInt8) : Option Directory := do
  let place ← d.resolve path
  if d.hasDirectory place ∨ place = nullDevice then none else some (d.put place bytes)

def isDirectory (d : Directory) (path : String) : Bool :=
  (d.resolve path).any d.hasDirectory

def actions : Files (StateM Directory) where
  readFile path := do return (← get).contents path
  writeFile path bytes := do
    let d ← get
    match d.write path bytes with
    | some written => set written; return true
    | none =>
      -- the null device takes everything and keeps nothing
      return d.resolve path == some nullDevice
  isDirectory path := do return (← get).isDirectory path

/-- A directory on a host that starts programs in a given way. -/
def hostWith (launch : Launch (StateM Directory)) : Host (StateM Directory) :=
  { actions with launch }

end Directory

end GoldenTrace
