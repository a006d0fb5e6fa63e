import EventQuery.Proofs.ParserCompleteness
import EventQuery.Proofs.ParserSoundness

/-!
# Places for a literal

A context is a query with a place left open where a literal may stand: an
operand, an argument, a member of a list, at any depth and in any clause of
the query. Filling the place with a literal gives a query.

Whether the query is well-formed does not depend on the literal, as long as
that is one of the language (`Query.Context.wellFormed_fill`). So a literal
that may stand in one place may be replaced there by any other
(`Query.Context.parse_fill`).
-/

namespace EventQuery

/-! ## Values -/

/-- A value with an open place. -/
inductive Value.Context where
  | here
  | call (name : CallName) (before : List Value) (inner : Value.Context) (after : List Value)
  | group (inner : Value.Context)
  | arithLeft (op : ArithOp) (inner : Value.Context) (right : Value)
  | arithRight (op : ArithOp) (left : Value) (inner : Value.Context)

namespace Value.Context

def fill (l : Literal) : Value.Context → Value
  | here => .literal l
  | call name before inner after => .call name (before ++ inner.fill l :: after)
  | group inner => .group (inner.fill l)
  | arithLeft op inner right => .arith op (inner.fill l) right
  | arithRight op left inner => .arith op left (inner.fill l)

theorem isArith_fill (C : Value.Context) (l l' : Literal) :
    (C.fill l).isArith = (C.fill l').isArith := by
  cases C <;> rfl

theorem isLoose_fill (C : Value.Context) (l l' : Literal) :
    (C.fill l).isLoose = (C.fill l').isLoose := by
  cases C <;> rfl

variable {l l' : Literal}

theorem wellFormed_fill (hl : l'.WellFormed) :
    ∀ {C : Value.Context}, (C.fill l).WellFormed → (C.fill l').WellFormed
  | here, _ => hl
  | call name before inner after, h => by
      obtain ⟨hname, -, hargs⟩ := h
      rw [allWellFormed_iff, List.forall_mem_append, List.forall_mem_cons] at hargs
      obtain ⟨hbefore, hinner, hafter⟩ := hargs
      refine ⟨hname, List.append_ne_nil_of_right_ne_nil _ (List.cons_ne_nil _ _), ?_⟩
      rw [allWellFormed_iff, List.forall_mem_append, List.forall_mem_cons]
      exact ⟨hbefore, wellFormed_fill hl hinner, hafter⟩
  | group inner, h => wellFormed_fill (C := inner) hl h
  | arithLeft op inner right, ⟨hleft, hright, hfit⟩ => by
      refine ⟨wellFormed_fill hl hleft, hright, ?_⟩
      rwa [OperandsFit, inner.isLoose_fill l' l]
  | arithRight op left inner, ⟨hleft, hright, hfit⟩ => by
      refine ⟨hleft, wellFormed_fill hl hright, ?_⟩
      rwa [OperandsFit, inner.isArith_fill l' l, inner.isLoose_fill l' l]

/-- A literal in parentheses is one whatever the literal. -/
theorem notListLike_fill : ∀ {C : Value.Context}, (C.fill l).NotListLike → (C.fill l').NotListLike
  | here, _ => nofun
  | call .., _ => nofun
  | group here, h => absurd rfl (h l)
  | group (call ..), _ => nofun
  | group (group _), _ => nofun
  | group (arithLeft ..), _ => nofun
  | group (arithRight ..), _ => nofun
  | arithLeft _ inner _, h => notListLike_fill (C := inner) h
  | arithRight .., h => h

end Value.Context

/-! ## Conditions -/

/-- A condition with an open place. -/
inductive Condition.Context where
  | not (inner : Condition.Context)
  | group (inner : Condition.Context)
  | comparisonLeft (op : CompareOp) (inner : Value.Context) (right : Value)
  | comparisonRight (op : CompareOp) (left : Value) (inner : Value.Context)
  | listItem (field : Field) (negated : Bool) (op : LookupOp) (before after : List Literal)
  | lookupValue (field : Field) (negated : Bool) (op : LookupOp) (inner : Value.Context)
  | call (name : CallName) (before : List Value) (inner : Value.Context) (after : List Value)
  | notCall (name : CallName) (before : List Value) (inner : Value.Context) (after : List Value)
  | logicalLeft (op : LogicOp) (inner : Condition.Context) (right : Condition)
  | logicalRight (op : LogicOp) (left : Condition) (inner : Condition.Context)

namespace Condition.Context

def fill (l : Literal) : Condition.Context → Condition
  | not inner => .not (inner.fill l)
  | group inner => .group (inner.fill l)
  | comparisonLeft op inner right => .comparison op (inner.fill l) right
  | comparisonRight op left inner => .comparison op left (inner.fill l)
  | listItem field negated op before after =>
    .lookup field negated op (.list (before ++ l :: after))
  | lookupValue field negated op inner => .lookup field negated op (.value (inner.fill l))
  | call name before inner after => .call name (before ++ inner.fill l :: after)
  | notCall name before inner after => .notCall name (before ++ inner.fill l :: after)
  | logicalLeft op inner right => .logical op (inner.fill l) right
  | logicalRight op left inner => .logical op left (inner.fill l)

variable {l l' : Literal}

theorem isLogical_fill (C : Condition.Context) : (C.fill l).isLogical = (C.fill l').isLogical := by
  cases C <;> rfl

theorem isCall_fill (C : Condition.Context) : (C.fill l).isCall = (C.fill l').isCall := by
  cases C <;> rfl

theorem wellFormed_fill (hl : l'.WellFormed) {C : Condition.Context} (h : (C.fill l).WellFormed) :
    (C.fill l').WellFormed := by
  have hcall : ∀ {name before after} {inner : Value.Context},
      (Value.call name (before ++ inner.fill l :: after)).WellFormed →
      (Value.call name (before ++ inner.fill l' :: after)).WellFormed :=
    fun {name before after inner} =>
      Value.Context.wellFormed_fill (C := .call name before inner after) hl
  induction C with
  | not inner ih =>
      obtain ⟨hinner, hlogical, hisCall⟩ := h
      exact ⟨ih hinner, inner.isLogical_fill.trans hlogical, inner.isCall_fill.trans hisCall⟩
  | group inner ih => exact ih h
  | comparisonLeft op inner right => exact ⟨Value.Context.wellFormed_fill hl h.1, h.2⟩
  | comparisonRight op left inner => exact ⟨h.1, Value.Context.wellFormed_fill hl h.2⟩
  | listItem field negated op before after =>
      obtain ⟨hfield, -, hitems⟩ := h
      rw [List.forall_mem_append, List.forall_mem_cons] at hitems
      refine ⟨hfield, List.append_ne_nil_of_right_ne_nil _ (List.cons_ne_nil _ _), ?_⟩
      rw [List.forall_mem_append, List.forall_mem_cons]
      exact ⟨hitems.1, hl, hitems.2.2⟩
  | lookupValue field negated op inner =>
      obtain ⟨hfield, hvalue, hlist⟩ := h
      exact ⟨hfield, Value.Context.wellFormed_fill hl hvalue,
        Value.Context.notListLike_fill hlist⟩
  | call name before inner after => exact hcall h
  | notCall name before inner after => exact hcall h
  | logicalLeft op inner right ih => exact ⟨ih h.1, h.2⟩
  | logicalRight op left inner ih =>
      exact ⟨h.1, ih h.2.1, inner.isLogical_fill.trans h.2.2⟩

end Condition.Context

/-! ## Queries -/

/-- A query with an open place, in the condition of an event or of a pipe. -/
inductive Query.Context where
  | simple (category : Category) (inner : Condition.Context) (pipes : List (Pipe Nat))
  | sequence (keys : List Field) (maxspan : Option Interval) (before : List SequenceStep)
      (category : Category) (inner : Condition.Context) (stepKeys : List Field)
      (after : List SequenceStep) (pipes : List (Pipe Nat))
  | sample (keys : List Field) (before : List SimpleQuery) (category : Category)
      (inner : Condition.Context) (after : List SimpleQuery) (pipes : List (Pipe Nat))
  | filter (body : Body Interval) (before : List (Pipe Nat)) (inner : Condition.Context)
      (after : List (Pipe Nat))

namespace Query.Context

def fill (l : Literal) : Query.Context → Query
  | simple category inner pipes => ⟨.simple ⟨category, some (inner.fill l)⟩, pipes⟩
  | sequence keys maxspan before category inner stepKeys after pipes =>
    ⟨.sequence ⟨keys, maxspan, before ++ ⟨⟨category, some (inner.fill l)⟩, stepKeys⟩ :: after⟩,
      pipes⟩
  | sample keys before category inner after pipes =>
    ⟨.sample ⟨keys, before ++ ⟨category, some (inner.fill l)⟩ :: after⟩, pipes⟩
  | filter body before inner after => ⟨body, before ++ .filter (inner.fill l) :: after⟩

variable {l l' : Literal}

theorem wellFormed_event (hl : l'.WellFormed) {category : Category} {inner : Condition.Context}
    (h : SimpleQuery.WellFormed ⟨category, some (inner.fill l)⟩) :
    SimpleQuery.WellFormed ⟨category, some (inner.fill l')⟩ := by
  refine ⟨h.1, fun c hc => ?_⟩
  obtain rfl := Option.some.inj hc
  exact Condition.Context.wellFormed_fill hl (h.2 _ rfl)

/-- A literal of the language may be replaced by any other. -/
theorem wellFormed_fill (hl : l'.WellFormed) {Q : Query.Context} (h : (Q.fill l).WellFormed) :
    (Q.fill l').WellFormed := by
  obtain ⟨hbody, hpipes⟩ := h
  cases Q with
  | simple category inner pipes => exact ⟨wellFormed_event hl hbody, hpipes⟩
  | sequence keys maxspan before category inner stepKeys after pipes =>
      obtain ⟨hkeys, hspan, -, hsteps⟩ := hbody
      rw [List.forall_mem_append, List.forall_mem_cons] at hsteps
      obtain ⟨hbefore, ⟨hevent, hstepKeys⟩, hafter⟩ := hsteps
      refine ⟨⟨hkeys, hspan, List.append_ne_nil_of_right_ne_nil _ (List.cons_ne_nil _ _), ?_⟩,
        hpipes⟩
      rw [List.forall_mem_append, List.forall_mem_cons]
      exact ⟨hbefore, ⟨wellFormed_event hl hevent, hstepKeys⟩, hafter⟩
  | sample keys before category inner after pipes =>
      obtain ⟨hkeys, -, hsteps⟩ := hbody
      rw [List.forall_mem_append, List.forall_mem_cons] at hsteps
      refine ⟨⟨hkeys, List.append_ne_nil_of_right_ne_nil _ (List.cons_ne_nil _ _), ?_⟩, hpipes⟩
      rw [List.forall_mem_append, List.forall_mem_cons]
      exact ⟨hsteps.1, wellFormed_event hl hsteps.2.1, hsteps.2.2⟩
  | filter body before inner after =>
      obtain ⟨hbefore, hpipes⟩ := List.forall_mem_append.mp hpipes
      obtain ⟨hfilter, hafter⟩ := List.forall_mem_cons.mp hpipes
      have hfilter : (inner.fill l').WellFormed := Condition.Context.wellFormed_fill hl hfilter
      exact ⟨hbody, List.forall_mem_append.mpr ⟨hbefore, List.forall_mem_cons.mpr
        ⟨hfilter, hafter⟩⟩⟩

/-- Where some literal is read, every literal of the language is. -/
theorem parse_fill {Q : Query.Context} {text : String} (h : parse text = .ok (Q.fill l))
    (hl : l'.WellFormed) {text' : String} (htext : (Q.fill l').SpelledBy text'.toList) :
    parse text' = .ok (Q.fill l') := by
  have hwf := wellFormed_fill hl (ofText_wellFormed (ofText_of_parse h))
  unfold parse Query.ofText
  rw [ofChars_of_spelledBy hwf htext]

end Query.Context

end EventQuery
