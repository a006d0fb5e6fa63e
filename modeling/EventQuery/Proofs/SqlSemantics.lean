import EventQuery.Filter
import EventQuery.Proofs.DialectSteps
import Mathlib.Data.List.Forall2

/-!
# What an expression means in SQL

A meaning for the expressions that a clause is made of, in three-valued
logic. `AND`, `OR` and `NOT` are Kleene's connectives, `IN` is the
disjunction of equalities and `NOT IN` its negation, `IS NULL` and
`IS NOT NULL` are tests that are never unknown.

What an engine does with single values is left open: an `Engine` says how
values compare, how they match a pattern and what its functions return.
So a statement about `Expr.sqlValue` holds for every engine.

An expression outside this language, and a fault, has no value.
-/

namespace EventQuery

/-! ## Truth values -/

inductive Truth where
  | yes
  | no
  | unknown
  deriving DecidableEq, Repr

namespace Truth

def ofBool (b : Bool) : Truth := if b then yes else no

def not : Truth → Truth
  | yes => no
  | no => yes
  | unknown => unknown

def and : Truth → Truth → Truth
  | no, _ => no
  | yes, t => t
  | unknown, no => no
  | unknown, _ => unknown

def or : Truth → Truth → Truth
  | yes, _ => yes
  | no, t => t
  | unknown, yes => yes
  | unknown, _ => unknown

/-- Does one of several statements hold? -/
def any : List Truth → Truth
  | [] => no
  | t :: ts => t.or (any ts)

@[simp] theorem or_no (t : Truth) : t.or no = t := by cases t <;> rfl

@[simp] theorem any_singleton (t : Truth) : any [t] = t := or_no t

end Truth

/-! ## Values and engines -/

/-- A value of a column or of an expression. `other` holds the values
that no constant denotes: dates, addresses, arrays. -/
inductive SqlValue (δ : Type) where
  | null
  | bool (b : Bool)
  | int (n : Int)
  | float (x : Binary64)
  | text (s : String)
  | other (d : δ)

namespace SqlValue

variable {δ : Type}

def ofConst : Const → SqlValue δ
  | .string s => text s
  | .int n => int n
  | .float x => float x
  | .bool b => bool b

def ofTruth : Truth → SqlValue δ
  | .yes => bool true
  | .no => bool false
  | .unknown => null

/-- The test for null, which is never unknown. -/
def isNull : SqlValue δ → Truth
  | null => .yes
  | _ => .no

end SqlValue

/-- What an SQL engine does with single values. -/
structure Engine (δ : Type) where
  /-- The truth of a value that is neither null nor a truth value. -/
  coerce : SqlValue δ → Truth
  /-- `=`, `<>`, `>`, `<`, `>=` and `<=`. -/
  compare : CompareOp → SqlValue δ → SqlValue δ → Truth
  like : SqlValue δ → SqlValue δ → Truth
  ilike : SqlValue δ → SqlValue δ → Truth
  /-- The test of a regular expression. -/
  regex : SqlValue δ → SqlValue δ → Truth
  /-- Is an address in a range? -/
  inRange : SqlValue δ → SqlValue δ → Truth
  arith : ArithOp → SqlValue δ → SqlValue δ → SqlValue δ
  /-- All other functions, by name. -/
  function : String → List (SqlValue δ) → SqlValue δ

namespace Engine

variable {δ : Type} (E : Engine δ)

/-- A value where a statement is expected. -/
def truth : SqlValue δ → Truth
  | .null => .unknown
  | .bool b => .ofBool b
  | v => E.coerce v

@[simp] theorem truth_ofTruth (t : Truth) : E.truth (.ofTruth t) = t := by
  cases t <;> rfl

def not (v : SqlValue δ) : SqlValue δ := .ofTruth (E.truth v).not

def and (v w : SqlValue δ) : SqlValue δ := .ofTruth ((E.truth v).and (E.truth w))

def or (v w : SqlValue δ) : SqlValue δ := .ofTruth ((E.truth v).or (E.truth w))

/-- Is a value equal to one of a list? -/
def member (v : SqlValue δ) (vs : List (SqlValue δ)) : Truth :=
  .any (vs.map (E.compare .eq v))

def lower (v : SqlValue δ) : SqlValue δ := E.function "lower" [v]

/-! ## Operators and functions by name -/

/-- The operators over two values. -/
def operator? : String → Option (SqlValue δ → SqlValue δ → SqlValue δ)
  | "AND" => some E.and
  | "OR" => some E.or
  | "=" => some fun v w => .ofTruth (E.compare .eq v w)
  | "<>" => some fun v w => .ofTruth (E.compare .notEq v w)
  | ">" => some fun v w => .ofTruth (E.compare .greater v w)
  | "<" => some fun v w => .ofTruth (E.compare .less v w)
  | ">=" => some fun v w => .ofTruth (E.compare .greaterEq v w)
  | "<=" => some fun v w => .ofTruth (E.compare .lessEq v w)
  | "LIKE" => some fun v w => .ofTruth (E.like v w)
  | "ILIKE" => some fun v w => .ofTruth (E.ilike v w)
  | "+" => some (E.arith .add)
  | "-" => some (E.arith .subtract)
  | "*" => some (E.arith .multiply)
  | "/" => some (E.arith .divide)
  | "%" => some (E.arith .modulo)
  | _ => none

/-- The two functions that make a statement, and all others. -/
def apply : String → List (SqlValue δ) → SqlValue δ
  | "match", [v, pattern] => .ofTruth (E.regex v pattern)
  | "isIPAddressInRange", [address, range] => .ofTruth (E.inRange address range)
  | name, vs => E.function name vs

end Engine

/-! ## Expressions -/

namespace Expr

def isNullLiteral : Expr → Bool
  | .null => true
  | _ => false

variable {δ : Type} (E : Engine δ) (row : String → SqlValue δ)

mutual

/-- The value of an expression over a row of columns. -/
def sqlValue : Expr → Option (SqlValue δ)
  | .const c => some (.ofConst c)
  | .symbol name => some (row name)
  | .null => some .null
  | .group e => sqlValue e
  | .binary op left right =>
    match op with
    | "IS" => do
      let v ← sqlValue left
      if isNullLiteral right then some (.ofTruth v.isNull) else none
    | "IS NOT" => do
      let v ← sqlValue left
      if isNullLiteral right then some (.ofTruth v.isNull.not) else none
    | "IN" => do
      let v ← sqlValue left
      let vs ← sqlItems right
      return .ofTruth (E.member v vs)
    | "NOT IN" => do
      let v ← sqlValue left
      let vs ← sqlItems right
      return .ofTruth (E.member v vs).not
    | op => do
      let f ← E.operator? op
      let v ← sqlValue left
      let w ← sqlValue right
      return f v w
  | .unary op args =>
    match op with
    | "NOT" => do
      let vs ← sqlValues args
      match vs with
      | [v] => some (E.not v)
      | _ => none
    | _ => none
  | .call name args => do
    let vs ← sqlValues args
    return E.apply name vs
  | .array _ => none
  | .fault _ => none

/-- The values of a list in parentheses. -/
def sqlItems : Expr → Option (List (SqlValue δ))
  | .array items => sqlValues items
  | _ => none

def sqlValues : List Expr → Option (List (SqlValue δ))
  | [] => some []
  | e :: es => do
    let v ← sqlValue e
    let vs ← sqlValues es
    return v :: vs

end

/-! ## Values of composed expressions -/

variable {E row}

theorem sqlValue_operator {op : String} {f : SqlValue δ → SqlValue δ → SqlValue δ}
    (hop : E.operator? op = some f) {left right : Expr} {v w : SqlValue δ}
    (hl : left.sqlValue E row = some v) (hr : right.sqlValue E row = some w) :
    (Expr.binary op left right).sqlValue E row = some (f v w) := by
  -- The four operators with rules of their own are no operators over two values.
  have his : op ≠ "IS" := by rintro rfl; simp [Engine.operator?] at hop
  have hisNot : op ≠ "IS NOT" := by rintro rfl; simp [Engine.operator?] at hop
  have hin : op ≠ "IN" := by rintro rfl; simp [Engine.operator?] at hop
  have hnotIn : op ≠ "NOT IN" := by rintro rfl; simp [Engine.operator?] at hop
  simp [sqlValue, hop, hl, hr]

theorem sqlValue_is {left : Expr} {v : SqlValue δ} (hl : left.sqlValue E row = some v) :
    (Expr.binary "IS" left .null).sqlValue E row = some (.ofTruth v.isNull) := by
  change (left.sqlValue E row).bind (fun v => some (SqlValue.ofTruth v.isNull)) = _
  rw [hl]
  rfl

theorem sqlValue_isNot {left : Expr} {v : SqlValue δ} (hl : left.sqlValue E row = some v) :
    (Expr.binary "IS NOT" left .null).sqlValue E row = some (.ofTruth v.isNull.not) := by
  change (left.sqlValue E row).bind (fun v => some (SqlValue.ofTruth v.isNull.not)) = _
  rw [hl]
  rfl

theorem sqlValues_eq_some_iff {es : List Expr} {vs : List (SqlValue δ)} :
    sqlValues E row es = some vs ↔ List.Forall₂ (fun e v => e.sqlValue E row = some v) es vs := by
  induction es generalizing vs with
  | nil => cases vs <;> simp [sqlValues]
  | cons e es ih =>
      cases vs with
      | nil => simp [sqlValues, Option.bind_eq_some_iff]
      | cons v vs => simp [sqlValues, Option.bind_eq_some_iff, ih]

theorem sqlValue_not {e : Expr} {v : SqlValue δ} (he : e.sqlValue E row = some v) :
    (Expr.unary "NOT" [e]).sqlValue E row = some (E.not v) := by
  have hargs : sqlValues E row [e] = some [v] := sqlValues_eq_some_iff.mpr (.cons he .nil)
  change (sqlValues E row [e]).bind _ = _
  rw [hargs]
  rfl

theorem sqlValue_call {name : String} {args : List Expr} {vs : List (SqlValue δ)}
    (h : List.Forall₂ (fun e v => e.sqlValue E row = some v) args vs) :
    (Expr.call name args).sqlValue E row = some (E.apply name vs) := by
  change (sqlValues E row args).bind (fun vs => some (E.apply name vs)) = _
  rw [sqlValues_eq_some_iff.mpr h]
  rfl

theorem sqlValue_in {left : Expr} {items : List Expr} {v : SqlValue δ} {vs : List (SqlValue δ)}
    (hl : left.sqlValue E row = some v)
    (hitems : List.Forall₂ (fun e v => e.sqlValue E row = some v) items vs) :
    (Expr.binary "IN" left (.array items)).sqlValue E row = some (.ofTruth (E.member v vs)) := by
  change (left.sqlValue E row).bind (fun v => (sqlValues E row items).bind fun vs =>
    some (SqlValue.ofTruth (E.member v vs))) = _
  rw [hl, sqlValues_eq_some_iff.mpr hitems]
  rfl

theorem sqlValue_notIn {left : Expr} {items : List Expr} {v : SqlValue δ}
    {vs : List (SqlValue δ)} (hl : left.sqlValue E row = some v)
    (hitems : List.Forall₂ (fun e v => e.sqlValue E row = some v) items vs) :
    (Expr.binary "NOT IN" left (.array items)).sqlValue E row
      = some (.ofTruth (E.member v vs).not) := by
  change (left.sqlValue E row).bind (fun v => (sqlValues E row items).bind fun vs =>
    some (SqlValue.ofTruth (E.member v vs).not)) = _
  rw [hl, sqlValues_eq_some_iff.mpr hitems]
  rfl

/-- A chain of `OR` over statements asks whether one of them holds. -/
theorem sqlValue_orChain {e : Expr} : ∀ {es : List Expr} {ts : List Truth},
    List.Forall₂ (fun e t => e.sqlValue E row = some (.ofTruth t)) es ts →
      orChain? es = some e → e.sqlValue E row = some (.ofTruth (.any ts))
  | [], _, _, hchain => by cases hchain
  | [_], [t], .cons he _, hchain => by
      obtain rfl := Option.some.inj hchain
      rw [he, Truth.any_singleton]
  | e₁ :: e₂ :: es, t₁ :: ts, .cons he hes, hchain => by
      rw [orChain?_cons_cons] at hchain
      obtain ⟨tail, htail, rfl⟩ := Option.map_eq_some_iff.mp hchain
      rw [sqlValue_operator (f := E.or) rfl he (sqlValue_orChain hes htail), Engine.or,
        Engine.truth_ofTruth, Engine.truth_ofTruth, Truth.any]

end Expr

end EventQuery
