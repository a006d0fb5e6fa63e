import EventQuery.Query.Source

/-!
# Failures

Why a query has no filter. The failure says at which stage the query was
refused.
-/

namespace EventQuery

inductive Failure where
  /-- The text is no query. -/
  | malformed (errors : List SyntaxError)
  /-- This kind of query has no filter. -/
  | unsupported (kind : String)
  /-- The query holds something that has no expression. -/
  | lowering (messages : List String)
  /-- Soft errors under the strict setting. -/
  | degraded (messages : List String)
  deriving DecidableEq, Repr

namespace Failure

def stage : Failure → String
  | malformed _ => "parse"
  | unsupported _ => "gate"
  | lowering _ => "lower"
  | degraded _ => "rewrite"

def list (messages : List String) : String := String.intercalate "; " messages

def message : Failure → String
  | malformed errors => "Syntax error: " ++ list (errors.map SyntaxError.text)
  | unsupported kind => "unsupported query type: " ++ kind
  | lowering messages => "Lowering error: " ++ list messages
  | degraded messages => "Translation error: " ++ list messages

/-- The single messages of a failure. -/
def messages : Failure → List String
  | malformed errors => errors.map SyntaxError.text
  | unsupported kind => [message (.unsupported kind)]
  | lowering messages => messages
  | degraded messages => messages

end Failure

end EventQuery
