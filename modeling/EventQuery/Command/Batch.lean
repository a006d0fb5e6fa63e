import EventQuery.Command.Arguments
import EventQuery.Command.Report
import EventQuery.Text.Lines

/-!
# Batches

A file with a query a line. Blank lines and lines that start with a
number sign are skipped; the others are taken one by one, and a failure
does not stop the rest.
-/

namespace EventQuery.Command

/-- Is the trimmed line a query? -/
def isQueryLine (line : String) : Bool :=
  match line.toList with
  | [] => false
  | c :: _ => c != '#'

/-- The queries of a file with the numbers of their lines. -/
def batchQueries (content : String) : List (Nat × String) :=
  ((Text.trimmedLines content).zipIdx 1).filterMap fun (line, number) =>
    if isQueryLine line then some (number, line) else none

structure BatchEntry where
  line : Nat
  query : String
  result : Except Failure Filter

namespace BatchEntry

def isFailed (e : BatchEntry) : Bool :=
  match e.result with
  | .ok _ => false
  | .error _ => true

def json (e : BatchEntry) : Json :=
  .object <|
    [("line", .nat e.line), ("query", .string e.query)]
    ++ match e.result with
      | .ok t => t.members
      | .error f => [("error", .string f.message)]

def text (e : BatchEntry) : String :=
  toString e.line ++ ": " ++
    (match e.result with
    | .ok t => t.whereClause
    | .error f => "error: " ++ f.message) ++ "\n"

end BatchEntry

def batchEntries (o : Options) (strict : Bool) (content : String) : List BatchEntry :=
  (batchQueries content).map fun (line, query) =>
    ⟨line, query, Filter.ofTextWith o strict query⟩

def batchText (format : Format) (entries : List BatchEntry) : String :=
  match format with
  | .json => (Json.array (entries.map BatchEntry.json)).pretty ++ "\n"
  | .text => String.join (entries.map BatchEntry.text)

def batch (o : Options) (strict : Bool) (format : Format) (content : String) : Outcome :=
  let entries := batchEntries o strict content
  let failures := entries.countP BatchEntry.isFailed
  if failures = 0 then .done (batchText format entries)
  else
    .failed (batchText format entries)
      ⟨toString failures ++ " of " ++ toString entries.length ++ " queries failed", none⟩

end EventQuery.Command
