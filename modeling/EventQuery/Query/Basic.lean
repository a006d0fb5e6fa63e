import EventQuery.Query.Builtin
import EventQuery.Query.Interval

/-!
# Queries

The tree of a query, one constructor per construct of the language.
String, number and boolean tokens keep their source text, quotes and
escapes included; their values are taken when a query is lowered.

A query is generic in how it holds its counts and its time span
(`QueryOf κ ι`). A `Query` holds numbers; with tokens in their places, it
can hold counts that are out of range.
-/

namespace EventQuery

/-! ## Values -/

structure Field where
  name : String
  /-- Written as `?name`. -/
  optional : Bool
  deriving DecidableEq, Repr

/-- A literal token with its source text. -/
inductive Literal where
  | string (raw : String)
  | number (raw : String)
  | boolean (raw : String)
  deriving DecidableEq, Repr

inductive Value where
  | null
  | literal (l : Literal)
  | field (f : Field)
  | call (name : CallName) (args : List Value)
  | group (v : Value)
  | arith (op : ArithOp) (left right : Value)

/-! ## Conditions -/

/-- The right side of a lookup: a list of literals or one value. -/
inductive LookupTarget where
  | list (items : List Literal)
  | value (v : Value)

/-- Conditions. `notCall` is a call directly under `not`, which is a
construct of its own. -/
inductive Condition where
  | boolean (raw : String)
  | not (c : Condition)
  | group (c : Condition)
  | comparison (op : CompareOp) (left right : Value)
  | lookup (field : Field) (negated : Bool) (op : LookupOp) (target : LookupTarget)
  | call (name : CallName) (args : List Value)
  | notCall (name : CallName) (args : List Value)
  | logical (op : LogicOp) (left right : Condition)

/-! ## Queries -/

inductive Category where
  /-- Every category. -/
  | any
  | name (text : String)
  /-- A string token, with its quotes. -/
  | quoted (raw : String)
  deriving DecidableEq, Repr

structure SimpleQuery where
  category : Category
  /-- Absent without a `where` clause. -/
  condition : Option Condition

structure SequenceStep where
  query : SimpleQuery
  keys : List Field

structure SequenceQuery (ι : Type) where
  /-- Join keys shared by all steps. -/
  keys : List Field
  maxspan : Option ι
  steps : List SequenceStep

structure SampleQuery where
  keys : List Field
  steps : List SimpleQuery

inductive Body (ι : Type) where
  | simple (q : SimpleQuery)
  | sequence (q : SequenceQuery ι)
  | sample (q : SampleQuery)

inductive Pipe (κ : Type) where
  | head (count : κ)
  | tail (count : κ)
  | count
  | unique (fields : List Field)
  | filter (condition : Condition)
  | sort (fields : List Field)

structure QueryOf (κ ι : Type) where
  body : Body ι
  pipes : List (Pipe κ)

abbrev Query := QueryOf Nat Interval

/-! ## Names of shapes and stages -/

def Body.kind {ι : Type} : Body ι → String
  | simple _ => "simple"
  | sequence _ => "sequence"
  | sample _ => "sample"

def Pipe.name {κ : Type} : Pipe κ → String
  | head _ => "head"
  | tail _ => "tail"
  | count => "count"
  | unique _ => "unique"
  | filter _ => "filter"
  | sort _ => "sort"

end EventQuery
