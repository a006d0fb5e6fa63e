import EventQuery.Grammar.Rules
import EventQuery.Query.Builder

/-!
# Queries from text

`Query.ofText` matches a text against the grammar and builds the query of
the parse tree. A text outside the grammar is reported once, at its
furthest failure. A text within the grammar is reported once per count or
span that is no quantity, in source order.
-/

namespace EventQuery

/-- The one report on a text outside the grammar. -/
def Grammar.refusal (text : List Char) : SyntaxError :=
  let furthest := ((Rules.query text).attempt text (.start text)).2
  .at text furthest.left (expectedMessage furthest.symbols)

namespace Query

open Grammar

/-- Build the query of a parse tree. If the tree is out of shape, this is
reported together with the faults so far, by place. -/
def ofTree (text : List Char) (tree : ParseNode) : Except (List SyntaxError) Query :=
  let (outcome, faults) := (Builder.query tree).run.run []
  let reports := faults.map (QuantityFault.report text)
  match outcome with
  | .ok q => if reports.isEmpty then .ok q else .error reports
  | .error m => .error ((reports ++ [m.report text]).mergeSort SyntaxError.notAfter)

/-- Read a text as a query. -/
def ofChars (text : List Char) : Except (List SyntaxError) Query :=
  match (Rules.query text).read text with
  | none => .error [refusal text]
  | some ([], _) => .error [⟨1, 1, "expected query"⟩]
  | some (tree :: _, _) => ofTree text tree

def ofText (text : String) : Except (List SyntaxError) Query := ofChars text.toList

end Query

end EventQuery
