import EventQuery.Query.Basic

/-!
# Precedence

A text gives operands and operators in a row; this module folds such a
row into a tree.

* Values: `* / %` bind tighter than `+ -`, and both levels lean left.
* Conditions: `and` and `or` share one level that leans left; a run of
  `not` applies to the one term after it, and the innermost `not` before
  a call makes the `notCall` construct.
-/

namespace EventQuery

/-! ## Values -/

namespace Value

/-- Fold the tight operators from the left as far as they reach. What is
left is a row of loose operators between finished operands. -/
def foldTight (first : Value) : List (ArithOp × Value) → Value × List (ArithOp × Value)
  | [] => (first, [])
  | (op, v) :: rest =>
    if op.isTight then
      foldTight (.arith op first v) rest
    else
      let (operand, row) := foldTight v rest
      (first, (op, operand) :: row)

/-- Fold a row of operators of one level from the left. -/
def foldLeft (first : Value) (row : List (ArithOp × Value)) : Value :=
  row.foldl (fun left (op, right) => .arith op left right) first

/-- The tree of the row `first op₁ v₁ op₂ v₂ …`. -/
def ofRow (first : Value) (row : List (ArithOp × Value)) : Value :=
  let (operand, loose) := foldTight first row
  foldLeft operand loose

end Value

/-! ## Conditions -/

namespace Condition

/-- One `not` in front of a condition. -/
def negate : Condition → Condition
  | .call name args => .notCall name args
  | c => .not c

/-- A term under a run of `nots` negations. -/
def negateTimes : Nat → Condition → Condition
  | 0, c => c
  | n + 1, c => negate (negateTimes n c)

/-- The tree of the row `first op₁ c₁ op₂ c₂ …`. -/
def ofRow (first : Condition) (row : List (LogicOp × Condition)) : Condition :=
  row.foldl (fun left (op, right) => .logical op left right) first

end Condition

end EventQuery
