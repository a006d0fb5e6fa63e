import EventQuery.Grammar.Token
import EventQuery.Query.Basic

/-!
# Well-formed queries

The shapes that a query read from a text can have, said without the
readers.

Tokens first: `IsIdent`, `IsStringToken`, `IsNumberToken`,
`IsBooleanToken` and `IsIntervalToken` are the complete texts of the
token rules. Then one predicate per kind of tree. The side conditions
are the traces that operator precedence leaves in a tree:

- a multiplication has no bare sum below it, and no operator leans right;
- `not` stands on a single term, and directly on a call it is fused into
  `notCall`;
- a lookup against one value does not start with a literal in
  parentheses, since that text is a list of one literal.

A query is generic in its counts and its time span, and so is
`QueryOf.WellFormed`: `SourceQuery.WellFormed` asks for tokens in these
places, `Query.WellFormed` for 64-bit quantities.
-/

namespace EventQuery

open Grammar

/-! ## Tokens -/

/-- The shape of a word: a word start, then word characters. -/
def IsWord : List Char → Prop
  | c :: s => isWordStart c ∧ ∀ d ∈ s, isWordChar d
  | [] => False

instance : DecidablePred IsWord
  | c :: s => decidable_of_iff (isWordStart c ∧ s.all isWordChar) (by simp [IsWord])
  | [] => isFalse id

/-- A word that is not reserved in any case. -/
structure IsIdent (name : String) : Prop where
  word : IsWord name.toList
  free : lowerToken name ∉ reservedWords

instance : DecidablePred IsIdent := fun name =>
  decidable_of_iff (IsWord name.toList ∧ lowerToken name ∉ reservedWords)
    ⟨fun h => ⟨h.1, h.2⟩, fun h => ⟨h.word, h.free⟩⟩

/-- The text between the quotes of a quoted string: no quote but after a
backslash, and no backslash at the end. -/
inductive QuotedBody : List Char → Prop
  | nil : QuotedBody []
  | pair (c : Char) {s : List Char} (h : QuotedBody s) : QuotedBody ('\\' :: c :: s)
  | plain {c : Char} {s : List Char} (hq : c ≠ '"') (hb : c ≠ '\\') (h : QuotedBody s) :
      QuotedBody (c :: s)

def threeQuotes : List Char := ['"', '"', '"']

/-- The text between three quotes: the closing quotes are the first three
in a row. -/
def TripleBody (body : List Char) : Prop :=
  ¬ threeQuotes <:+: body ++ ['"', '"']

inductive IsStringToken : List Char → Prop
  | triple {body : List Char} (h : TripleBody body) :
      IsStringToken (threeQuotes ++ body ++ threeQuotes)
  | quoted {body : List Char} (h : QuotedBody body) :
      IsStringToken ('"' :: body ++ ['"'])

def IsFraction (s : List Char) : Prop :=
  s = [] ∨ ∃ digits, s = '.' :: digits ∧ Digits.isRun digits

def IsExponentSign (s : List Char) : Prop :=
  s = [] ∨ s = ['+'] ∨ s = ['-']

def IsExponent (s : List Char) : Prop :=
  s = [] ∨ ∃ mark sign digits, s = mark :: sign ++ digits ∧ (mark = 'e' ∨ mark = 'E')
    ∧ IsExponentSign sign ∧ Digits.isRun digits

/-- A sign, digits, a fraction and an exponent; only the digits must be
there. -/
def IsNumberToken (s : List Char) : Prop :=
  ∃ minus digits fraction exponent, s = minus ++ digits ++ fraction ++ exponent
    ∧ (minus = [] ∨ minus = ['-']) ∧ Digits.isRun digits
    ∧ IsFraction fraction ∧ IsExponent exponent

def IsBooleanToken (raw : String) : Prop :=
  lowerToken raw = "true" ∨ lowerToken raw = "false"

/-- Digits directly followed by a unit. -/
def IsIntervalToken (s : List Char) : Prop :=
  ∃ digits, ∃ unit : IntervalUnit, s = digits ++ unit.suffix.toList ∧ Digits.isRun digits

/-! ## Fields, literals and calls -/

def Field.WellFormed (f : Field) : Prop := IsIdent f.name

def Literal.WellFormed : Literal → Prop
  | .string raw => IsStringToken raw.toList
  | .number raw => IsNumberToken raw.toList
  | .boolean raw => IsBooleanToken raw

/-- The name of a built-in function, or that name with a `~`. -/
def CallName.Canonical (f : CallName) : Prop :=
  ∃ b ∈ Builtin.all, f.text = b.name ∨ f.text = b.name ++ "~"

/-- A list of fields that must not be empty. -/
def FieldsWellFormed (fields : List Field) : Prop :=
  fields ≠ [] ∧ ∀ f ∈ fields, f.WellFormed

/-! ## Values -/

namespace Value

/-- A bare operation. -/
def isArith : Value → Bool
  | .arith .. => true
  | _ => false

/-- A bare sum or difference. -/
def isLoose : Value → Bool
  | .arith op _ _ => !op.isTight
  | _ => false

/-- The first term of a row of operations. -/
def leftmost : Value → Value
  | .arith _ left _ => left.leftmost
  | v => v

/-- What the operands of an operation may be: of two operators in a row
the tighter one, or of equal ones the left one, is the inner one. -/
def OperandsFit (op : ArithOp) (left right : Value) : Prop :=
  if op.isTight then left.isLoose = false ∧ right.isArith = false
  else right.isLoose = false

mutual

def WellFormed : Value → Prop
  | .null => True
  | .literal l => l.WellFormed
  | .field f => f.WellFormed
  | .call name args => name.Canonical ∧ args ≠ [] ∧ AllWellFormed args
  | .group v => v.WellFormed
  | .arith op left right => left.WellFormed ∧ right.WellFormed ∧ OperandsFit op left right

def AllWellFormed : List Value → Prop
  | [] => True
  | v :: vs => v.WellFormed ∧ AllWellFormed vs

end

theorem allWellFormed_iff {vs : List Value} :
    AllWellFormed vs ↔ ∀ v ∈ vs, v.WellFormed := by
  induction vs with
  | nil => simp [AllWellFormed]
  | cons v vs ih => simp [AllWellFormed, ih]

end Value

/-! ## Conditions -/

/-- A value that cannot be mistaken for a list: its first term is no
literal in parentheses. -/
def Value.NotListLike (v : Value) : Prop :=
  ∀ l, v.leftmost ≠ .group (.literal l)

def LookupTarget.WellFormed : LookupTarget → Prop
  | .list items => items ≠ [] ∧ ∀ l ∈ items, l.WellFormed
  | .value v => v.WellFormed ∧ v.NotListLike

namespace Condition

def isLogical : Condition → Bool
  | .logical .. => true
  | _ => false

def isCall : Condition → Bool
  | .call .. => true
  | _ => false

def WellFormed : Condition → Prop
  | .boolean raw => IsBooleanToken raw
  | .not c => c.WellFormed ∧ c.isLogical = false ∧ c.isCall = false
  | .group c => c.WellFormed
  | .comparison _ left right => left.WellFormed ∧ right.WellFormed
  | .lookup field _ _ target => field.WellFormed ∧ target.WellFormed
  | .call name args => (Value.call name args).WellFormed
  | .notCall name args => (Value.call name args).WellFormed
  | .logical _ left right => left.WellFormed ∧ right.WellFormed ∧ right.isLogical = false

end Condition

/-! ## Queries -/

def Category.WellFormed : Category → Prop
  | .any => True
  | .name text => IsIdent text
  | .quoted raw => IsStringToken raw.toList

def SimpleQuery.WellFormed (q : SimpleQuery) : Prop :=
  q.category.WellFormed ∧ ∀ c, q.condition = some c → c.WellFormed

def SequenceStep.WellFormed (s : SequenceStep) : Prop :=
  s.query.WellFormed ∧ ∀ f ∈ s.keys, f.WellFormed

structure SequenceQuery.WellFormed {ι : Type} (span : ι → Prop) (q : SequenceQuery ι) : Prop where
  keys : ∀ f ∈ q.keys, f.WellFormed
  maxspan : ∀ i, q.maxspan = some i → span i
  nonempty : q.steps ≠ []
  steps : ∀ s ∈ q.steps, s.WellFormed

structure SampleQuery.WellFormed (q : SampleQuery) : Prop where
  keys : FieldsWellFormed q.keys
  nonempty : q.steps ≠ []
  steps : ∀ s ∈ q.steps, s.WellFormed

def Body.WellFormed {ι : Type} (span : ι → Prop) : Body ι → Prop
  | .simple q => q.WellFormed
  | .sequence q => q.WellFormed span
  | .sample q => q.WellFormed

def Pipe.WellFormed {κ : Type} (count : κ → Prop) : Pipe κ → Prop
  | .head n => count n
  | .tail n => count n
  | .count => True
  | .unique fields => FieldsWellFormed fields
  | .filter condition => condition.WellFormed
  | .sort fields => FieldsWellFormed fields

/-- A well-formed query whose counts and span satisfy what is asked of
them. -/
structure QueryOf.WellFormed {κ ι : Type} (count : κ → Prop) (span : ι → Prop)
    (q : QueryOf κ ι) : Prop where
  body : q.body.WellFormed span
  pipes : ∀ p ∈ q.pipes, p.WellFormed count

/-- A finished query is well-formed with counts below the limit and a
span whose length in milliseconds is below it. -/
def Query.WellFormed (q : Query) : Prop :=
  QueryOf.WellFormed (· < Quantity.limit) (fun i => i.millis?.isSome) q

end EventQuery
