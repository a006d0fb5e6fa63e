import EventQuery.Text.Blank

/-!
# Lines

A text as a list of lines. A line feed ends a line; what follows the last
one is a line if it is not empty. A carriage return before the line feed
belongs to the line, where trimming removes it.
-/

namespace EventQuery.Text

/-- The pieces between line feeds; there is one more than line feeds. -/
def pieces : List Char → List (List Char)
  | [] => [[]]
  | c :: s =>
    if c = '\n' then [] :: pieces s
    else
      match pieces s with
      | [] => [[c]]
      | piece :: rest => (c :: piece) :: rest

/-- Drop the last piece if it is empty. -/
def dropEmptyEnd : List (List Char) → List (List Char)
  | [] => []
  | [[]] => []
  | piece :: rest => piece :: dropEmptyEnd rest

def lines (text : String) : List String :=
  (dropEmptyEnd (pieces text.toList)).map String.ofList

/-- The lines with white space removed at their ends. -/
def trimmedLines (text : String) : List String :=
  (lines text).map trim

end EventQuery.Text
