/-!
# Files

What the program sees of the file system: for each path the text of a
file, or why there is none.

`Files.directory` is a file system in memory. A path is walked step by
step from the working directory, or from the root if it starts with a
slash. Every step, the empty one after a trailing slash included, starts
from a directory, so a file ends the walk.
-/

namespace EventQuery.Command

inductive FileRead where
  | text (contents : String)
  /-- Nothing is there. -/
  | missing (reason : String)
  /-- Something is there, but its text cannot be read. -/
  | unreadable (reason : String)
  deriving DecidableEq, Repr

abbrev Files := String → FileRead

/-- Why a path leads nowhere. -/
inductive PathFault where
  | noSuchFile
  | notDirectory
  | nameTooLong
  deriving DecidableEq, Repr

def PathFault.message : PathFault → String
  | noSuchFile => "No such file or directory (os error 2)"
  | notDirectory => "Not a directory (os error 20)"
  | nameTooLong => "File name too long (os error 36)"

inductive FileTree where
  | file (contents : String)
  | directory (entries : List (String × FileTree))

namespace FileTree

def entries : FileTree → List (String × FileTree)
  | file _ => []
  | directory entries => entries

/-- Put a file at the end of some steps, with the directories on the way. -/
def add (contents : String) : List String → FileTree → FileTree
  | [], _ => .file contents
  | name :: steps, tree =>
    let inner := (tree.entries.lookup name).getD (.directory [])
    .directory ((name, add contents steps inner) :: tree.entries)

end FileTree

namespace Files

def isDirectory : String := "Is a directory (os error 21)"

/-- Names have at most this many bytes. -/
def nameLimit : Nat := 255

/-- Paths have fewer bytes. -/
def pathLimit : Nat := 4096

/-- A place: the tree there, and below it the trees above it, the nearest
first. -/
abbrev Place := FileTree × List FileTree

/-- One step of a walk. There is no way up from the topmost directory. -/
def step : Place → String → Except PathFault Place
  | (.file _, _), _ => .error .notDirectory
  | (.directory entries, above), name =>
    if name = "" ∨ name = "." then .ok (.directory entries, above)
    else if name = ".." then
      match above with
      | [] => .ok (.directory entries, [])
      | parent :: above => .ok (parent, above)
    else if nameLimit < name.utf8ByteSize then .error .nameTooLong
    else
      match entries.lookup name with
      | some tree => .ok (tree, .directory entries :: above)
      | none => .error .noSuchFile

/-- The root holds an empty device and a directory for temporary files. -/
def root : FileTree :=
  .directory
    [("dev", .directory [("null", .file "")]), ("tmp", .directory [])]

/-- The place of a path, from a working directory below an empty one. -/
def locate (working : FileTree) (path : String) : Except PathFault Place :=
  if path.isEmpty then .error .noSuchFile
  else if pathLimit ≤ path.utf8ByteSize then .error .nameTooLong
  else
    let start : Place :=
      if path.startsWith "/" then (root, []) else (working, [.directory []])
    (path.splitOn "/").foldlM step start

/-- A working directory that holds some files and nothing else. -/
def directory (files : List (String × String)) : Files :=
  let working := files.foldl
    (fun tree (name, contents) => tree.add contents (name.splitOn "/")) (.directory [])
  fun path =>
    match locate working path with
    | .ok (.file contents, _) => .text contents
    | .ok (.directory _, _) => .unreadable isDirectory
    | .error fault => .missing fault.message

end Files

end EventQuery.Command
