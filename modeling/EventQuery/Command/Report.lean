import EventQuery.Json.Printer
import EventQuery.Filter

/-!
# Reports

The forms in which the program shows filters and failures.
-/

namespace EventQuery

def Const.json : Const → Json
  | .string s => .string s
  | .int n => .number (toString n)
  | .float x =>
    match x.json? with
    | some text => .number text
    | none => .null
  | .bool b => .bool b

def Parameters.json (ps : Parameters) : Json :=
  .object (ps.named.entries.map fun (name, c) => (name, c.json))

namespace Filter

def members (t : Filter) : List (String × Json) :=
  [("where_clause", .string t.whereClause), ("parameters", t.parameters.json),
   ("errors", .strings t.messages)]

/-- One line per parameter. -/
def parameterLines (t : Filter) : String :=
  String.join (t.parameters.named.entries.map fun (name, c) =>
    "  " ++ name ++ " = " ++ c.plain ++ "\n")

end Filter

namespace Command

/-- What a run leaves behind. -/
structure Outcome where
  exit : Nat
  stdout : String
  stderr : String
  deriving DecidableEq, Repr

/-- An error and perhaps its cause. -/
structure Complaint where
  message : String
  cause : Option String := none

namespace Complaint

/-- A cause is indented, each of its lines. -/
def indented (cause : String) : String :=
  "    " ++ String.ofList (cause.toList.flatMap fun c =>
    if c = '\n' then ['\n', ' ', ' ', ' ', ' '] else [c])

def text (c : Complaint) : String :=
  "Error: " ++ c.message ++
    (match c.cause with
    | some cause => "\n\nCaused by:\n" ++ indented cause
    | none => "") ++ "\n"

end Complaint

namespace Outcome

def done (stdout : String) : Outcome := ⟨0, stdout, ""⟩

/-- A run that fails after some output. -/
def failed (stdout : String) (c : Complaint) : Outcome := ⟨1, stdout, c.text⟩

end Outcome

end Command

end EventQuery
