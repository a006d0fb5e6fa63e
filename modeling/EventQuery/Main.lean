import EventQuery.Command.Run

/-!
# The executable

Reads the files that a command line names and the standard input, then
runs the program on them.
-/

namespace EventQuery.Command

/-- The text of a file, or why there is none. -/
def readFile (path : String) : IO FileRead := do
  try
    return .text (← IO.FS.readFile path)
  catch
    | .noFileOrDirectory .. => return .missing PathFault.noSuchFile.message
    | .inappropriateType _ 20 _ => return .missing PathFault.notDirectory.message
    | .inappropriateType .. => return .unreadable Files.isDirectory
    | .invalidArgument _ 36 _ => return .missing PathFault.nameTooLong.message
    | e => return .unreadable e.toString

/-- The files a request refers to. -/
def Request.paths : Request → List String
  | .run i =>
    i.config :: match i.action with
      | .batch file => [file]
      | _ => []
  | _ => []

/-- Does the request read the standard input? -/
def Request.readsInput : Request → Bool
  | .run i => i.action == .repl
  | _ => false

def readPaths (paths : List String) : IO Files := do
  let reads ← paths.mapM fun path => return (path, ← readFile path)
  return fun path => (reads.lookup path).getD (.missing PathFault.noSuchFile.message)

partial def readInput (stream : IO.FS.Stream) (text : String) : IO String := do
  let line ← stream.getLine
  if line.isEmpty then return text else readInput stream (text ++ line)

end EventQuery.Command

open EventQuery.Command in
def main (args : List String) : IO UInt32 := do
  let request := Request.ofArgs args
  let files ← readPaths request.paths
  let input ← if request.readsInput then readInput (← IO.getStdin) "" else pure ""
  let outcome := run files input args
  IO.print outcome.stdout
  IO.eprint outcome.stderr
  return outcome.exit.toUInt32
