import EventQuery.Expr.Basic
import EventQuery.Expr.SoftError

/-!
# Passes from the leaves up

A pass is given by what it does to one node, a `step`; `Expr.bottomUp`
carries the step through a tree from the leaves up. Where the step fails,
the pass does not stop: the node becomes a fault that carries the message,
and the error is recorded. Errors are in the order in which the nodes are
finished, so those inside a node come before its own.
-/

namespace EventQuery

/-- A tree, or list of trees, that went through a pass, with the errors on
the way. -/
structure Mapped (α : Type) where
  result : α
  errors : List SoftError

namespace Mapped

/-- Finish a node whose parts are finished. -/
def finish (step : Expr → Except SoftError Expr) (node : Mapped Expr) : Mapped Expr :=
  match step node.result with
  | .ok e => ⟨e, node.errors⟩
  | .error x => ⟨.fault x.message, node.errors ++ [x]⟩

end Mapped

namespace Expr

mutual

/-- Map the parts of a node, then the node by `step`. -/
def bottomUp (step : Expr → Except SoftError Expr) : Expr → Mapped Expr
  | .group e =>
    let e' := bottomUp step e
    .finish step ⟨.group e'.result, e'.errors⟩
  | .binary op left right =>
    let left' := bottomUp step left
    let right' := bottomUp step right
    .finish step ⟨.binary op left'.result right'.result, left'.errors ++ right'.errors⟩
  | .unary op args =>
    let args' := bottomUpList step args
    .finish step ⟨.unary op args'.result, args'.errors⟩
  | .call name args =>
    let args' := bottomUpList step args
    .finish step ⟨.call name args'.result, args'.errors⟩
  | .array items =>
    let items' := bottomUpList step items
    .finish step ⟨.array items'.result, items'.errors⟩
  | .const c => .finish step ⟨.const c, []⟩
  | .symbol name => .finish step ⟨.symbol name, []⟩
  | .null => .finish step ⟨.null, []⟩
  | .fault message => .finish step ⟨.fault message, []⟩

def bottomUpList (step : Expr → Except SoftError Expr) : List Expr → Mapped (List Expr)
  | [] => ⟨[], []⟩
  | e :: es =>
    let e' := bottomUp step e
    let es' := bottomUpList step es
    ⟨e'.result :: es'.result, e'.errors ++ es'.errors⟩

end

end Expr

end EventQuery
