import Packrat.Cli.Run

/-!
# A directory in memory

A console over files that are held in memory, so that a command line is a pure function of its
arguments and the files it starts with.

A path is followed name by name, and only a directory can be gone on from: an empty name and `.` stay
there, `..` goes up. Above the directory nothing is known: nothing is found there, and what is written
there is gone. Of the paths that start at the root only the null device, which reads as empty and
keeps nothing, and the device that prints lead anywhere.

* `Directory.follow?`: where a path leads.
* `Directory.run`: carries out a command line in a directory.
-/

namespace Packrat.Cli

/-- Files by their paths, and what was printed. -/
structure Directory where
  files : List (String × String) := []
  printed : String := ""

/-- Where a path leads. -/
inductive Place
  /-- To a path in the directory; the empty one is the directory itself. -/
  | inside (names : List String)
  /-- To a directory further up. -/
  | above
  /-- To something in a directory further up. -/
  | beyond
  /-- To the null device. -/
  | null
  /-- To the device that prints. -/
  | screen
deriving DecidableEq

/-- How a path in the directory is written. -/
def Place.key (names : List String) : String := "/".intercalate names

/-- The longest name that a file can have, in bytes. -/
def longestName : Nat := 255

/-- The longest path that can be followed, in bytes. -/
def longestPath : Nat := 4095

namespace Directory

/-- Whether there is a directory at a path: some file is further down. -/
def isDirectory (d : Directory) (names : List String) : Bool :=
  names.isEmpty || d.files.any fun file => (Place.key names ++ "/").isPrefixOf file.1

/-- Whether a place can be gone on from. -/
def canContinue (d : Directory) : Place → Bool
  | .inside names => d.isDirectory names
  | .above => true
  | .beyond | .null | .screen => false

/-- Follows one name of a path. -/
def enter? (d : Directory) (place : Place) (name : String) : Option Place :=
  if !d.canContinue place || longestName < name.utf8ByteSize then none
  else if name = "" ∨ name = "." then some place
  else
    match place with
    | .inside names =>
      if name = ".." then
        some (if names.isEmpty then .above else .inside names.dropLast)
      else some (.inside (names ++ [name]))
    | _ => some (if name = ".." then .above else .beyond)

/-- The device at a path that starts at the root. -/
def device? (path : List String) : Option Place :=
  let named := path.filter fun name => name ≠ "" ∧ name ≠ "."
  if path.getLast? ≠ named.getLast? then none
  else if named = ["dev", "null"] then some .null
  else if named = ["dev", "stdout"] then some .screen
  else none

/-- **Where a path leads**, if it can be followed. -/
def follow? (d : Directory) (path : String) : Option Place :=
  if longestPath < path.utf8ByteSize then none
  else
    match path.splitOn "/" with
    | "" :: rest => device? rest
    | names => names.foldlM d.enter? (.inside [])

/-- What is read at a path. -/
def get? (d : Directory) (path : String) : Option String :=
  match d.follow? path with
  | some (.inside names) => d.files.lookup (Place.key names)
  | some .null => some ""
  | _ => none

/-- Writes a file of the directory. -/
def put (d : Directory) (name content : String) : Directory :=
  { d with files := (name, content) :: d.files.filter fun file => file.1 ≠ name }

/-- Prints a text. -/
def print (d : Directory) (text : String) : Directory := { d with printed := d.printed ++ text }

/-- Writes a text to a path, unless that leads to a directory or nowhere. -/
def write? (d : Directory) (path content : String) : Option Directory :=
  match d.follow? path with
  | some (.inside names) =>
    if d.isDirectory names then none else some (d.put (Place.key names) content)
  | some .beyond | some .null => some d
  | some .screen => some (d.print content)
  | some .above | none => none

/-- The console of a directory. -/
def console : Console (StateM Directory) where
  read path := do
    match (← get).get? path with
    | some content => return .ok content
    | none => return .error "No such file or directory"
  write path content := do
    match (← get).write? path content with
    | some d => do
      set d
      return .ok ()
    | none => return .error "No such file or directory"
  print text := modify fun d => d.print text

/-- Carries out a command line in a directory. -/
def run (d : Directory) (args : List String) : Exit × Directory := (Cli.run console args).run d

end Directory

end Packrat.Cli
