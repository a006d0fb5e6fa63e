import EventQuery.Proofs.ParserSoundness
import EventQuery.Proofs.Symbols

/-!
# The stations of a filter

A filter that was made passed every station on the way from a text: the
text reads as a simple query without pipes, all of it can be expressed,
and the filter is that of the clause of its expression. Each station is
described by when it lets something pass, and `Filter.ofText_eq_ok_iff`
puts them together.
-/

namespace EventQuery

theorem Query.simple?_eq_ok_iff {query : Query} {q : SimpleQuery} :
    query.simple? = .ok q ↔ query = ⟨.simple q, []⟩ := by
  obtain ⟨body, pipes⟩ := query
  cases body <;> cases pipes <;> simp [Query.simple?]

theorem SimpleQuery.lower_eq_ok_iff {q : SimpleQuery} {categoryField : String} {e? : Option Expr} :
    q.lower categoryField = .ok e? ↔ q.faults = [] ∧ e? = q.expr? categoryField := by
  unfold SimpleQuery.lower
  cases q.faults with
  | nil => simp [eq_comm]
  | cons fault faults => simp

theorem lowerText_eq_ok_iff {text categoryField : String} {e? : Option Expr} :
    lowerText text categoryField = .ok e? ↔
      ∃ q, parse text = .ok ⟨.simple q, []⟩ ∧ q.faults = [] ∧ e? = q.expr? categoryField := by
  unfold lowerText
  simp only [bind_eq_ok_iff, Query.simple?_eq_ok_iff, SimpleQuery.lower_eq_ok_iff]
  constructor
  · rintro ⟨_, hparse, q, rfl, hfaults⟩
    exact ⟨q, hparse, hfaults⟩
  · rintro ⟨q, hparse, hfaults⟩
    exact ⟨_, hparse, q, rfl, hfaults⟩

theorem clauseText_eq_ok_iff {o : Options} {text : String} {c? : Option Clause} :
    clauseText o text = .ok c? ↔
      ∃ q, parse text = .ok ⟨.simple q, []⟩ ∧ q.faults = [] ∧
        c? = (q.expr? o.categoryField).map fun e => e.clause o := by
  unfold clauseText
  simp only [bind_eq_ok_iff, lowerText_eq_ok_iff]
  constructor
  · rintro ⟨_, ⟨q, hparse, hfaults, rfl⟩, h⟩
    exact ⟨q, hparse, hfaults, (Except.ok.inj h).symm⟩
  · rintro ⟨q, hparse, hfaults, rfl⟩
    exact ⟨_, ⟨q, hparse, hfaults, rfl⟩, rfl⟩

/-- A text has a filter if it has a clause. -/
theorem Filter.ofText_eq_ok_iff {o : Options} {text : String} {f : Filter} :
    Filter.ofText o text = .ok f ↔
      ∃ c?, clauseText o text = .ok c? ∧ f = Filter.ofClause? c? := by
  unfold Filter.ofText
  rw [bind_eq_ok_iff]
  constructor
  · rintro ⟨c?, hc, h⟩
    exact ⟨c?, hc, (Except.ok.inj h).symm⟩
  · rintro ⟨c?, hc, rfl⟩
    exact ⟨c?, hc, rfl⟩

theorem Filter.ofText_of_parse {o : Options} {text : String} {q : SimpleQuery}
    (hparse : parse text = .ok ⟨.simple q, []⟩) (hfaults : q.faults = []) :
    Filter.ofText o text =
      .ok (Filter.ofClause? ((q.expr? o.categoryField).map fun e => e.clause o)) :=
  Filter.ofText_eq_ok_iff.mpr ⟨_, clauseText_eq_ok_iff.mpr ⟨q, hparse, hfaults, rfl⟩, rfl⟩

theorem Expr.clause_errors (e : Expr) (o : Options) :
    (e.clause o).errors = (e.toSql o.namer).errors := by
  unfold Expr.clause
  cases o.extractParameters <;> rfl

/-- The symbols of the expression of a text are words that are not
reserved, or the field that holds the category. -/
theorem SimpleQuery.expr?_symbols_ident {text categoryField : String} {q : SimpleQuery} {e : Expr}
    (hparse : parse text = .ok ⟨.simple q, []⟩) (he : q.expr? categoryField = some e) :
    ∀ s ∈ e.symbols, IsIdent s ∨ s = categoryField := by
  intro s hs
  have hq : q.WellFormed := (ofText_wellFormed (ofText_of_parse hparse)).body
  refine (expr?_symbols he s hs).imp_left fun hs => ?_
  obtain ⟨f, hf, rfl⟩ := List.mem_map.mp hs
  exact hq.fields f hf

end EventQuery
