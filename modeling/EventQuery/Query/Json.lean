import EventQuery.Json.Basic
import EventQuery.Query.Basic

/-!
# Queries as JSON

A construct with parts is an object with one member, named for the
construct; a construct without parts is its name.
-/

namespace EventQuery

open Json

/-- A construct and its content. -/
def tagged (tag : String) (content : Json) : Json := .object [(tag, content)]

def Field.json (f : Field) : Json :=
  .object [("name", .string f.name), ("optional", .bool f.optional)]

def fieldsJson (fields : List Field) : Json := .array (fields.map Field.json)

def Literal.json : Literal → Json
  | .string raw => tagged "String" (.string raw)
  | .number raw => tagged "Number" (.string raw)
  | .boolean raw => tagged "Boolean" (.string raw)

/-- A call by its name and the forms of its arguments. -/
def callJson (name : CallName) (args : List Json) : Json :=
  .object [("name", .string name.text), ("args", .array args)]

/-- An operator and its operands. -/
def operationJson (op : String) (left right : Json) : Json :=
  .object [("op", .string op), ("left", left), ("right", right)]

mutual

def Value.json : Value → Json
  | .null => .string "Null"
  | .literal l => tagged "Literal" l.json
  | .field f => tagged "Field" f.json
  | .call name args => tagged "Funcall" (callJson name (Value.jsons args))
  | .group v => tagged "Group" v.json
  | .arith op left right => tagged "Arithmetic" (operationJson op.tag left.json right.json)

def Value.jsons : List Value → List Json
  | [] => []
  | v :: vs => v.json :: Value.jsons vs

end

def LookupTarget.json : LookupTarget → Json
  | .list items => tagged "List" (.array (items.map Literal.json))
  | .value v => tagged "Value" v.json

def Condition.json : Condition → Json
  | .boolean raw => tagged "Boolean" (.string raw)
  | .not c => tagged "Not" c.json
  | .group c => tagged "Group" c.json
  | .comparison op left right => tagged "Comparison" (operationJson op.tag left.json right.json)
  | .lookup field negated op target =>
    tagged "Lookup" (.object
      [("field", field.json), ("negated", .bool negated), ("op", .string op.tag),
       ("target", target.json)])
  | .call name args => tagged "Funcall" (callJson name (Value.jsons args))
  | .notCall name args => tagged "NotFuncall" (callJson name (Value.jsons args))
  | .logical op left right => tagged "Logical" (operationJson op.tag left.json right.json)

def Category.json : Category → Json
  | .any => .string "Any"
  | .name text => tagged "Name" (.string text)
  | .quoted raw => tagged "Quoted" (.string raw)

def SimpleQuery.json (q : SimpleQuery) : Json :=
  .object
    [("category", q.category.json), ("condition", (q.condition.map Condition.json).getD .null)]

def SequenceStep.json (s : SequenceStep) : Json :=
  .object [("query", s.query.json), ("by", fieldsJson s.keys)]

def Interval.json (i : Interval) : Json :=
  .object [("value", .nat i.value), ("unit", .string i.unit.tag)]

def Body.json : Body Interval → Json
  | .simple q => tagged "Simple" q.json
  | .sequence q =>
    tagged "Sequence" (.object
      [("by", fieldsJson q.keys), ("maxspan", (q.maxspan.map Interval.json).getD .null),
       ("steps", .array (q.steps.map SequenceStep.json))])
  | .sample q =>
    tagged "Sample" (.object
      [("by", fieldsJson q.keys), ("steps", .array (q.steps.map SimpleQuery.json))])

def Pipe.json : Pipe Nat → Json
  | .head n => tagged "Head" (.nat n)
  | .tail n => tagged "Tail" (.nat n)
  | .count => .string "Count"
  | .unique fields => tagged "Unique" (fieldsJson fields)
  | .filter condition => tagged "Filter" condition.json
  | .sort fields => tagged "Sort" (fieldsJson fields)

def Query.json (q : Query) : Json :=
  .object [("body", q.body.json), ("pipes", .array (q.pipes.map Pipe.json))]

end EventQuery
