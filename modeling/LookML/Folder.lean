import LookML.Run

/-!
# Folders — what a path leads to

A path is a sequence of steps with slashes between them.  It is followed in a folder with at most
one file.  An empty step and a dot stay where they are, two dots lead out of the folder, and
outside it there is nothing with a name.
-/

namespace LookML

/-- A directory that holds at most one file, given by its name and its bytes read as an input. -/
structure Folder where
  file? : Option (String × Input)
deriving DecidableEq, Repr

namespace Folder

/-- Where a path has led so far. -/
inductive Place where
  /-- In the folder. -/
  | inside
  /-- In a directory around the folder. -/
  | outside
  | file (contents : Input)
deriving DecidableEq, Repr

/-- The longest name of a file, in bytes. -/
def nameLimit : Nat := 255

/-- The longest path, in bytes. -/
def pathLimit : Nat := 4095

/-- Whether a step of a path leads nowhere else. -/
def isStay (step : String) : Bool :=
  step == "" || step == "."

/-- The input of a name that is not in a directory. -/
def absent (name : String) : Input :=
  if nameLimit < name.utf8ByteSize then .nameTooLong else .missing

/-- Follows the steps of a path from a place. -/
def follow (folder : Folder) : Place → List String → Input
  | .file contents, [] => contents
  | .file _, _ :: _ => .notDirectory
  | .inside, [] => .directory
  | .outside, [] => .directory
  | .inside, step :: rest =>
    if isStay step then folder.follow .inside rest
    else if step = ".." then folder.follow .outside rest
    else
      match folder.file? with
      | some (name, contents) =>
        if step = name then folder.follow (.file contents) rest else absent step
      | none => absent step
  | .outside, step :: rest =>
    if isStay step || step == ".." then folder.follow .outside rest else absent step

/-- The input that a path leads to.  An empty path leads nowhere, and a path that starts with a
slash starts outside the folder. -/
def find (folder : Folder) (path : String) : Input :=
  if path = "" then .missing
  else if pathLimit < path.utf8ByteSize then .nameTooLong
  else folder.follow (if path.startsWith "/" then .outside else .inside) (path.splitOn "/")

end Folder

end LookML
