import EventQuery.Expr.Parameters
import EventQuery.Expr.SoftError

/-!
# Rewriting with a state

A pass that is kept for several trees has a state of its own, and every
node it visits may change that state. `Expr.rewrite` takes a visitor
through a tree: the parts of a node from left to right, then the node with
its new parts. The state goes along, so a visit sees what all visits before
it left behind, those in earlier trees included.

There are two kinds of visitors. `Expr.recording` puts the errors of a step down
in a list. `Extraction.visit` counts the constants that it takes out and
files each of them under its name.
-/

namespace EventQuery

namespace Expr

mutual

/-- Visit the parts of a node, then the node. -/
def rewrite {σ : Type} (visit : Expr → StateM σ Expr) : Expr → StateM σ Expr
  | .group e => do
    let e ← rewrite visit e
    visit (.group e)
  | .binary op left right => do
    let left ← rewrite visit left
    let right ← rewrite visit right
    visit (.binary op left right)
  | .unary op args => do
    let args ← rewriteList visit args
    visit (.unary op args)
  | .call name args => do
    let args ← rewriteList visit args
    visit (.call name args)
  | .array items => do
    let items ← rewriteList visit items
    visit (.array items)
  | .const c => visit (.const c)
  | .symbol name => visit (.symbol name)
  | .null => visit .null
  | .fault message => visit (.fault message)

def rewriteList {σ : Type} (visit : Expr → StateM σ Expr) : List Expr → StateM σ (List Expr)
  | [] => return []
  | e :: es => do
    let e ← rewrite visit e
    let es ← rewriteList visit es
    return e :: es

end

end Expr

/-! ## Steps that may fail -/

/-- Put an error down; a fault takes the place of the node. -/
def SoftError.raise (x : SoftError) : StateM (List SoftError) Expr := do
  modify (· ++ [x])
  return .fault x.message

/-- Visit a node by a step, and put down its error if it fails. -/
def Expr.recording (step : Expr → Except SoftError Expr) (e : Expr) :
    StateM (List SoftError) Expr :=
  match step e with
  | .ok e' => return e'
  | .error x => x.raise

/-! ## Constants that are taken out -/

/-- How many constants were taken out, and under which names. -/
structure Extraction where
  count : Nat
  parameters : NameMap Const

namespace Extraction

def start : Extraction := ⟨0, .empty⟩

/-- The number of the next constant. -/
def nextNumber : StateM Extraction Nat := do
  modify fun x => { x with count := x.count + 1 }
  return (← get).count

/-- Take a constant out. Everything else stays. -/
def visit : Expr → StateM Extraction Expr
  | .const c =>
    if c.isBool then
      return .const c
    else do
      let number ← nextNumber
      modify fun x => { x with parameters := x.parameters.insert (Parameters.name number) c }
      return .symbol (placeholder number c)
  | e => return e

end Extraction

end EventQuery
