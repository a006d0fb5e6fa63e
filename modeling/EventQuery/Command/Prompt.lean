import EventQuery.Command.Report
import EventQuery.Text.Lines

/-!
# The prompt

Queries read from standard input, a line each, and answered at once. A
blank line is skipped; the word `exit` or the end of the input ends the
conversation.
-/

namespace EventQuery.Command

def banner : String := "EQL client\n"

def prompt : String := "EQL> "

/-- The answer to one query. -/
def reply (o : Options) (strict : Bool) (table : String) (query : String) : String :=
  match Filter.ofTextWith o strict query with
  | .ok t =>
    "where clause: '" ++ t.whereClause ++ "'\n" ++ t.parameterLines
      ++ "SQL:\n" ++ t.select table ++ "\n"
  | .error f =>
    f.stage ++ " error:\n" ++ String.join (f.messages.map fun m => "  " ++ m ++ "\n")

/-- The rest of a conversation, from a prompt on. -/
def converse (answer : String → String) : List String → String
  | [] => prompt
  | line :: rest =>
    if line = "exit" then prompt
    else prompt ++ (if line.isEmpty then "" else answer line) ++ converse answer rest

def conversation (o : Options) (strict : Bool) (table : String) (input : String) : String :=
  banner ++ converse (reply o strict table) (Text.trimmedLines input)

end EventQuery.Command
