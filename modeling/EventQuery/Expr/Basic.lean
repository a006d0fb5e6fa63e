import EventQuery.Decimal.Layout

/-!
# Expressions

The tree between a query and its SQL text. Operators and functions are
plain names: the same tree first carries the names of the query language
and later those of SQL, and a pass decides which names it knows.
-/

namespace EventQuery

inductive Const where
  | string (s : String)
  | int (n : Int)
  | float (x : Binary64)
  | bool (b : Bool)
  deriving DecidableEq, Repr

inductive Expr where
  | const (c : Const)
  | symbol (name : String)
  | null
  | group (e : Expr)
  | binary (op : String) (left right : Expr)
  | unary (op : String) (args : List Expr)
  | call (name : String) (args : List Expr)
  | array (items : List Expr)
  /-- Stands where a pass could not map something. -/
  | fault (message : String)
  deriving Inhabited

/-- The text of a constant in a listing. Strings are shown as they are. -/
def Const.plain : Const → String
  | string s => s
  | int n => toString n
  | float x => x.plain
  | bool b => if b then "true" else "false"

namespace Expr

def string (s : String) : Expr := .const (.string s)

mutual

def nodeCount : Expr → Nat
  | .const _ => 1
  | .symbol _ => 1
  | .null => 1
  | .group e => 1 + e.nodeCount
  | .binary _ left right => 1 + left.nodeCount + right.nodeCount
  | .unary _ args => 1 + listNodeCount args
  | .call _ args => 1 + listNodeCount args
  | .array items => 1 + listNodeCount items
  | .fault _ => 1

def listNodeCount : List Expr → Nat
  | [] => 0
  | e :: es => e.nodeCount + listNodeCount es

end

/-- `a OR (b OR (c OR …))` over a nonempty list. -/
def orChain? : List Expr → Option Expr
  | [] => none
  | [e] => some e
  | e :: es => (orChain? es).map (.binary "OR" e ·)

end Expr

end EventQuery
