/-!
# Soft errors

Why a node of an expression has no counterpart in SQL. A pass records such
an error and goes on: `SoftError.message` is what the filter reports, and
also what the node is replaced by (`Expr.bottomUp`). An error keeps its
cause as data, so that it can be compared without its wording.
-/

namespace EventQuery

/-- How many arguments a function takes. -/
inductive Arity where
  | exactly (n : Nat)
  | either (a b : Nat)
  | atLeast (n : Nat)
  deriving DecidableEq, Repr

namespace Arity

def accepts : Arity → Nat → Bool
  | exactly n, count => count == n
  | either a b, count => count == a || count == b
  | atLeast n, count => n ≤ count

def text : Arity → String
  | exactly n => toString n
  | either a b => toString a ++ " or " ++ toString b
  | atLeast n => "at least " ++ toString n

end Arity

/-- Why a name of a field has no column. -/
inductive FieldNameError where
  | unknown (name : String)
  | invalid (name reason : String)
  deriving DecidableEq, Repr

def FieldNameError.message : FieldNameError → String
  | unknown name => "unknown field '" ++ name ++ "'"
  | invalid name reason => "field '" ++ name ++ "' cannot be translated: " ++ reason

/-- Why a node could not be mapped. -/
inductive SoftError where
  | fieldName (e : FieldNameError)
  | unknownBinary (op : String)
  | unknownUnary (op : String)
  | needsList (op : String)
  | emptyLookup
  | unknownFunction (name : String)
  | arity (name : String) (arity : Arity) (count : Nat)
  | notImplemented (name : String)
  | missingOperand (name : String)
  | missingAddress (name : String)
  | missingRange (name : String)
  deriving DecidableEq, Repr

def SoftError.message : SoftError → String
  | fieldName e => e.message
  | unknownBinary op => "Unknown infix operator: " ++ op
  | unknownUnary op => "Unknown prefix operator: " ++ op
  | needsList op => op ++ " operator requires a list of values"
  | emptyLookup => "lookup requires at least one value"
  | unknownFunction name => "Unknown EQL function '" ++ name ++ "'"
  | arity name a count =>
    "'" ++ name ++ "' function requires " ++ a.text ++ " argument(s), but got " ++ toString count
  | notImplemented name => name ++ " function is not implemented"
  | missingOperand name => "'" ++ name ++ "' function requires 2 argument(s)"
  | missingAddress name => "'" ++ name ++ "' function requires an address"
  | missingRange name => "'" ++ name ++ "' function requires at least one range"

end EventQuery
