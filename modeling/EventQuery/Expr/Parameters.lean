import EventQuery.Expr.Basic
import EventQuery.NameMap

/-!
# Parameters

Constants can be taken out of an expression. Each is replaced by a
placeholder with a number and a type, in order from left to right; the
constants themselves form the list of parameters. Booleans stay.

The `n`-th constant taken out is called `P_n`, so a list of constants is
all there is to know about the parameters; `Parameters.named` lists them
by name.
-/

namespace EventQuery

/-- The constants taken out so far, in the order of their numbers. -/
abbrev Parameters := List Const

/-- The type of a placeholder. Only integers have a type of their own. -/
def Const.placeholderType : Const → String
  | int _ => "Int64"
  | bool _ => "Boolean"
  | string _ => "String"
  | float _ => "String"

def Const.isBool : Const → Bool
  | bool _ => true
  | _ => false

def Parameters.name (number : Nat) : String := "P_" ++ toString number

def placeholder (number : Nat) (c : Const) : String :=
  "\x7b" ++ Parameters.name number ++ ":" ++ c.placeholderType ++ "\x7d"

/-- Parameters with their names. -/
def Parameters.named (ps : Parameters) : NameMap Const :=
  NameMap.ofList (ps.zipIdx.map fun (c, i) => (Parameters.name (i + 1), c))

namespace Expr

mutual

/-- Replace the constants of an expression when `taken` are taken out
already. Gives the tree and the constants of this tree. -/
def extract (taken : Nat) : Expr → Expr × Parameters
  | .const c =>
    if c.isBool then (.const c, []) else (.symbol (placeholder (taken + 1) c), [c])
  | .group e =>
    let (e', ps) := extract taken e
    (.group e', ps)
  | .binary op left right =>
    let (left', ps) := extract taken left
    let (right', qs) := extract (taken + ps.length) right
    (.binary op left' right', ps ++ qs)
  | .unary op args =>
    let (args', ps) := extractList taken args
    (.unary op args', ps)
  | .call name args =>
    let (args', ps) := extractList taken args
    (.call name args', ps)
  | .array items =>
    let (items', ps) := extractList taken items
    (.array items', ps)
  | .symbol name => (.symbol name, [])
  | .null => (.null, [])
  | .fault message => (.fault message, [])

def extractList (taken : Nat) : List Expr → List Expr × Parameters
  | [] => ([], [])
  | e :: es =>
    let (e', ps) := extract taken e
    let (es', qs) := extractList (taken + ps.length) es
    (e' :: es', ps ++ qs)

end

end Expr

end EventQuery
