import EventQuery.Expr.Lower
import EventQuery.Expr.Pass
import EventQuery.Expr.Sql
import EventQuery.Failure
import EventQuery.Query.Fields
import EventQuery.Text.Quoted

/-!
# Filters

From the text of a query to a filter, the text of a WHERE clause with its
parameters. The way there has four stations, and a query may be refused
at each of the first three:

- the `Query` that a text reads as (`parse`);
- the simple query in it, if it is one without pipes (`Query.simple?`);
- the `Expr` of its condition (`SimpleQuery.lower`);
- the `Clause`: the expression in columns and SQL operators, with the
  parameters taken out if asked to (`Expr.clause`).

A clause always has a filter (`Clause.filter`). What could not be mapped
stands in it as a fault and is listed among the errors; the strict setting
refuses such a filter (`Filter.strict`).
-/

namespace EventQuery

/-! ## Options -/

structure Options where
  /-- The field that holds the category of an event. -/
  categoryField : String := "event.category"
  /-- Without a namer, fields keep their names. -/
  namer : Option Namer := none
  extractParameters : Bool := false

namespace Options

/-- A one-line description of the options. What the namer does is not
shown. -/
def describe (o : Options) : String :=
  "TransformOptions \x7b category_field: " ++ Text.quoted o.categoryField
    ++ ", field_name_translator: "
    ++ (if o.namer.isSome then "Some(\"<translator>\")" else "None")
    ++ ", extract_parameters: " ++ (if o.extractParameters then "true" else "false") ++ " \x7d"

/-- A one-line description of the way from queries to filters under these
options. -/
def describeRenderer (o : Options) : String :=
  "EqlTranspiler \x7b options: " ++ o.describe ++ ", renderer: SqlRenderer \x7d"

end Options

/-! ## Results -/

structure Filter where
  /-- Empty if the query matches everything. -/
  whereClause : String
  parameters : Parameters
  errors : List SoftError

namespace Filter

/-- The filter of a query that matches everything. -/
def everything : Filter := ⟨"", [], []⟩

def messages (f : Filter) : List String := f.errors.map SoftError.message

/-- Refuse a filter with soft errors. -/
def strict (f : Filter) : Except Failure Filter :=
  if f.errors.isEmpty then .ok f else .error (.degraded f.messages)

/-- The statement that selects the matching events from a table. -/
def select (f : Filter) (table : String) : String :=
  "SELECT * FROM " ++ table ++
    (if f.whereClause.isEmpty then "" else " WHERE " ++ f.whereClause)

end Filter

/-! ## From a text to an expression -/

/-- Read a text; what is no query is a failure. -/
def parse (text : String) : Except Failure Query :=
  match Query.ofText text with
  | .ok q => .ok q
  | .error errors => .error (.malformed errors)

/-- The simple query in a query, if there is one and no pipe follows. -/
def Query.simple? (q : Query) : Except Failure SimpleQuery :=
  match q.body, q.pipes with
  | .simple s, [] => .ok s
  | .simple _, pipe :: _ => .error (.unsupported ("pipe " ++ pipe.name))
  | body, _ => .error (.unsupported body.kind)

/-- The expression of a query, if all of it can be expressed. -/
def SimpleQuery.lower (q : SimpleQuery) (categoryField : String) :
    Except Failure (Option Expr) :=
  match q.faults with
  | [] => .ok (q.expr? categoryField)
  | faults => .error (.lowering (faults.map LoweringFault.message))

/-- The expression of a query text; none if the query matches
everything. -/
def lowerText (text : String) (categoryField : String) : Except Failure (Option Expr) := do
  let query ← parse text
  let simple ← query.simple?
  simple.lower categoryField

/-! ## From an expression to a filter -/

/-- Column names, then SQL operators. -/
def Expr.toSql (e : Expr) (namer : Option Namer) : Mapped Expr :=
  match namer with
  | none => e.toDialect
  | some n =>
    let named := e.nameFields n
    let mapped := named.result.toDialect
    ⟨mapped.result, named.errors ++ mapped.errors⟩

/-- An expression in columns and SQL operators, with what was gathered on
the way there. -/
structure Clause where
  tree : Expr
  parameters : Parameters
  errors : List SoftError

/-- The clause of an expression. -/
def Expr.clause (e : Expr) (o : Options) : Clause :=
  let mapped := e.toSql o.namer
  if o.extractParameters then
    let (tree, parameters) := mapped.result.extract 0
    ⟨tree, parameters, mapped.errors⟩
  else
    ⟨mapped.result, [], mapped.errors⟩

/-- The clause of a query text; none if the query matches everything. -/
def clauseText (o : Options) (text : String) : Except Failure (Option Clause) := do
  let e? ← lowerText text o.categoryField
  return e?.map fun e => e.clause o

/-- Write the clause out. -/
def Clause.filter (c : Clause) : Filter := ⟨c.tree.sql, c.parameters, c.errors⟩

namespace Filter

def ofClause? : Option Clause → Filter
  | none => everything
  | some c => c.filter

/-- The filter of a query text. -/
def ofText (o : Options) (text : String) : Except Failure Filter := do
  return ofClause? (← clauseText o text)

/-- The filter of a query text; soft errors count if `isStrict`. -/
def ofTextWith (o : Options) (isStrict : Bool) (text : String) : Except Failure Filter := do
  let f ← ofText o text
  if isStrict then f.strict else return f

end Filter

end EventQuery
