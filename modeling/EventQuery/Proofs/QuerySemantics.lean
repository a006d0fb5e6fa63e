import EventQuery.Proofs.SqlSemantics

/-!
# What a query means

The meaning of a simple query over the fields of an event, said on the
query itself and not through its expression. The same `Engine` says what
single values do, so that the meaning of a query and that of a clause can
be compared.

* `and`, `or` and `not` are Kleene's connectives.
* `==` and `!=` against a bare null ask whether the left side is null; all
  other comparisons compare.
* A lookup asks whether one of its operands matches the field; a negated
  lookup is the negation of that.
* `in~`, and the functions with a `~`, work on lower-cased operands.

What has no meaning here (a call with a wrong number of arguments, a field
without a value) makes the whole query meaningless.
-/

namespace EventQuery

variable {δ : Type} (E : Engine δ)

/-! ## Functions -/

namespace Engine

/-- What a function returns, if it takes so many arguments. -/
def builtin? : Builtin → List (SqlValue δ) → Option (SqlValue δ)
  | .add, [v, w] => some (E.arith .add v w)
  | .subtract, [v, w] => some (E.arith .subtract v w)
  | .multiply, [v, w] => some (E.arith .multiply v w)
  | .divide, [v, w] => some (E.arith .divide v w)
  | .modulo, [v, w] => some (E.arith .modulo v w)
  | .cidrMatch, address :: range :: ranges =>
    some (.ofTruth (.any ((range :: ranges).map (E.inRange address))))
  | .concat, v :: vs => some (E.function "concat" (v :: vs))
  | .endsWith, [s, part] => some (E.function "endsWithUTF8" [s, part])
  | .indexOf, [s, part] => some (E.function "position" [s, part])
  | .indexOf, [s, part, start] => some (E.function "position" [s, part, start])
  | .length, [s] => some (E.function "length" [s])
  | .number, [s] => some (E.function "toFloat" [s])
  | .startsWith, [s, part] => some (E.function "startsWithUTF8" [s, part])
  | .string, [v] => some (E.function "toString" [v])
  | .stringContains, [s, part] => some (E.function "hasSubsequence" [s, part])
  | .substring, [s, first] => some (E.function "substring" [s, first])
  | .substring, [s, first, last] => some (E.function "substring" [s, first, last])
  | _, _ => none

/-- The first two values in lower case. -/
def lowerTwo : List (SqlValue δ) → List (SqlValue δ)
  | v :: w :: vs => E.lower v :: E.lower w :: vs
  | vs => vs

/-- What a call returns. Four functions have a variant that disregards
case. -/
def call? (f : CallName) (vs : List (SqlValue δ)) : Option (SqlValue δ) :=
  match f.insensitive, f.builtin with
  | false, b => E.builtin? b vs
  | true, .endsWith => E.builtin? .endsWith (E.lowerTwo vs)
  | true, .indexOf => E.builtin? .indexOf (E.lowerTwo vs)
  | true, .startsWith => E.builtin? .startsWith (E.lowerTwo vs)
  | true, .stringContains => E.builtin? .stringContains (E.lowerTwo vs)
  | true, _ => none

/-- Does a value match one operand of a lookup? -/
def hits (op : LookupOp) (v w : SqlValue δ) : Truth :=
  match op with
  | .inList => E.compare .eq v w
  | .inListInsensitive => E.compare .eq (E.lower v) (E.lower w)
  | .like => E.like v w
  | .likeInsensitive | .colon => E.ilike v w
  | .regex | .regexInsensitive => E.regex v w

end Engine

/-! ## Values -/

def Literal.value? : Literal → Option (SqlValue δ)
  | string raw => some (.text (evalString raw))
  | number raw => (evalNumber? raw).map .ofConst
  | boolean raw => some (.bool (evalBoolean raw))

variable (fields : String → Option (SqlValue δ))

namespace Value

mutual

/-- The value of a value over the fields of an event. -/
def value? : Value → Option (SqlValue δ)
  | .null => some .null
  | .literal l => l.value?
  | .field f => fields f.name
  | .call f args => do E.call? f (← values? args)
  | .group v => v.value?
  | .arith op left right => do return E.arith op (← left.value?) (← right.value?)

def values? : List Value → Option (List (SqlValue δ))
  | [] => some []
  | v :: vs => do return (← v.value?) :: (← values? vs)

end

end Value

/-! ## Lookups -/

/-- The operators whose strings are patterns with `*` and `?`. -/
def LookupOp.takesPattern : LookupOp → Bool
  | colon | like | likeInsensitive => true
  | regex | regexInsensitive | inList | inListInsensitive => false

/-- The value of a literal as the operand of a lookup. -/
def Literal.operand? (op : LookupOp) : Literal → Option (SqlValue δ)
  | string raw =>
    let text := evalString raw
    some (.text (if op.takesPattern then String.ofList (Dialect.likePattern text.toList) else text))
  | l => l.value?

/-- The value of a value as the operand of a lookup: what is no bare
literal is taken as it is. -/
def Value.operand? (op : LookupOp) : Value → Option (SqlValue δ)
  | .literal l => l.operand? op
  | v => v.value? E fields

/-- The operands of a lookup; `in~` wants a list. -/
def LookupTarget.operands? (op : LookupOp) : LookupTarget → Option (List (SqlValue δ))
  | list items => items.mapM (Literal.operand? op)
  | value v => if op = .inListInsensitive then none else do return [← v.operand? E fields op]

/-! ## Conditions and queries -/

/-- The value of a condition over the fields of an event. -/
def Condition.value? : Condition → Option (SqlValue δ)
  | .boolean raw => some (.bool (Literal.evalBoolean raw))
  | .not c => do return E.not (← c.value?)
  | .group c => c.value?
  | .comparison .eq left .null => do return .ofTruth (← left.value? E fields).isNull
  | .comparison .notEq left .null => do return .ofTruth (← left.value? E fields).isNull.not
  | .comparison op left right => do
    return .ofTruth (E.compare op (← left.value? E fields) (← right.value? E fields))
  | .lookup field negated op target => do
    let v ← fields field.name
    let operands ← target.operands? E fields op
    let found := Truth.any (operands.map (E.hits op v))
    return .ofTruth (if negated then found.not else found)
  | .call f args => do E.call? f (← Value.values? E fields args)
  | .notCall f args => do return E.not (← E.call? f (← Value.values? E fields args))
  | .logical .and left right => do return E.and (← left.value?) (← right.value?)
  | .logical .or left right => do return E.or (← left.value?) (← right.value?)

/-- The test of the category of an event. -/
def categoryValue? (categoryField text : String) : Option (SqlValue δ) := do
  return .ofTruth (E.compare .eq (← fields categoryField) (.text text))

/-- The value of a simple query: what matches everything is true. -/
def SimpleQuery.value? (categoryField : String) (q : SimpleQuery) : Option (SqlValue δ) :=
  match q.condition, q.category.text? with
  | none, none => some (.bool true)
  | some c, none => c.value? E fields
  | none, some text => categoryValue? E fields categoryField text
  | some c, some text => do
    return E.and (← c.value? E fields) (← categoryValue? E fields categoryField text)

end EventQuery
