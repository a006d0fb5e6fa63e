import EventQuery.Expr.Literal

/-!
# Expressions of queries

A simple query becomes one expression: its condition, joined with a test
of the category. A query without either matches everything and has no
expression.

The expression is defined for every query (`SimpleQuery.expr?`); what
cannot be expressed is listed beside it (`SimpleQuery.faults`), in source
order and without stopping at the first.
-/

namespace EventQuery

inductive LoweringFault where
  | optionalField
  | badNumber (raw : String)
  deriving DecidableEq, Repr

def LoweringFault.message : LoweringFault → String
  | optionalField => "optional fields are not supported"
  | badNumber raw => "error parsing number '" ++ raw ++ "': invalid float literal"

/-! ## Fields and literals -/

def Field.expr (f : Field) : Expr := .symbol f.name

def Field.faults (f : Field) : List LoweringFault :=
  if f.optional then [.optionalField] else []

def Literal.expr : Literal → Expr
  | string raw => .string (evalString raw)
  | number raw => .const ((evalNumber? raw).getD (.int 0))
  | boolean raw => .const (.bool (evalBoolean raw))

def Literal.faults : Literal → List LoweringFault
  | number raw => if (evalNumber? raw).isSome then [] else [.badNumber raw]
  | _ => []

/-! ## Values -/

namespace Value

mutual

def expr : Value → Expr
  | .null => .null
  | .literal l => l.expr
  | .field f => f.expr
  | .call name args => .call name.text (exprs args)
  | .group v => .group v.expr
  | .arith op left right => .binary op.token left.expr right.expr

def exprs : List Value → List Expr
  | [] => []
  | v :: vs => v.expr :: exprs vs

end

mutual

def faults : Value → List LoweringFault
  | .null => []
  | .literal l => l.faults
  | .field f => f.faults
  | .call _ args => listFaults args
  | .group v => v.faults
  | .arith _ left right => left.faults ++ right.faults

def listFaults : List Value → List LoweringFault
  | [] => []
  | v :: vs => v.faults ++ listFaults vs

end

end Value

/-! ## Conditions -/

def LookupTarget.expr : LookupTarget → Expr
  | list items => .array (items.map Literal.expr)
  | value v => v.expr

def LookupTarget.faults : LookupTarget → List LoweringFault
  | list items => items.flatMap Literal.faults
  | value v => v.faults

/-- The operator name of a lookup, negated or not. -/
def LookupOp.name (op : LookupOp) (negated : Bool) : String :=
  (if negated then "not " else "") ++ op.token

namespace Condition

def expr : Condition → Expr
  | .boolean raw => .const (.bool (Literal.evalBoolean raw))
  | .not c => .unary "not" [c.expr]
  | .group c => .group c.expr
  | .comparison op left right => .binary op.token left.expr right.expr
  | .lookup field negated op target => .binary (op.name negated) field.expr target.expr
  | .call name args => .call name.text (Value.exprs args)
  | .notCall name args => .unary "not" [.call name.text (Value.exprs args)]
  | .logical op left right => .binary op.token left.expr right.expr

def faults : Condition → List LoweringFault
  | .boolean _ => []
  | .not c => c.faults
  | .group c => c.faults
  | .comparison _ left right => left.faults ++ right.faults
  | .lookup field _ _ target => field.faults ++ target.faults
  | .call _ args => Value.listFaults args
  | .notCall _ args => Value.listFaults args
  | .logical _ left right => left.faults ++ right.faults

end Condition

/-! ## Queries -/

/-- The category that a test is made for; none if every category, or one
spelled as an empty string, is asked for. -/
def Category.text? : Category → Option String
  | any => none
  | name text => if text.isEmpty then none else some text
  | quoted raw =>
    let text := Literal.evalString raw
    if text.isEmpty then none else some text

def Category.expr? (category : Category) (categoryField : String) : Option Expr :=
  category.text?.map fun text => .binary "==" (.symbol categoryField) (.string text)

namespace SimpleQuery

/-- The expression of a query, none if it matches everything. -/
def expr? (q : SimpleQuery) (categoryField : String) : Option Expr :=
  match q.condition, q.category.expr? categoryField with
  | some condition, some category => some (.binary "and" condition.expr category)
  | some condition, none => some condition.expr
  | none, category => category

def faults (q : SimpleQuery) : List LoweringFault :=
  (q.condition.map Condition.faults).getD []

end SimpleQuery

end EventQuery
