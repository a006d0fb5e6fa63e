import EventQuery.Proofs.DialectMeaning
import EventQuery.Proofs.Extraction
import EventQuery.Proofs.FilterStages

/-!
# Clauses keep the meaning of queries

If a filter has no errors, its clause has the value of the query it was
made of, for every engine and every row of columns, nulls included: a
field of the query reads the column that the namer gives it, and a
placeholder reads its parameter.

The two passes before extraction are taken together: `Translates` says
that an expression goes through both without an error. What it means for
each kind of node is said by one lemma, and the inductions over values and
conditions use nothing else of the passes.
-/

namespace EventQuery

namespace Expr

/-! ## Translation without errors -/

/-- The expression goes through column names and SQL operators without an
error. -/
def Translates (namer : Namer) (e t : Expr) : Prop :=
  ∃ named, bottomUp (nameFieldStep namer) e = ⟨named, []⟩ ∧
    bottomUp Dialect.step named = ⟨t, []⟩

/-- No namer is as good as the one that keeps every name. -/
theorem translates_of_toSql {namer : Option Namer} {e t : Expr} (h : e.toSql namer = ⟨t, []⟩) :
    Translates (namer.getD .identity) e t := by
  cases namer with
  | none => exact ⟨e, nameFields_identity e, h⟩
  | some n =>
      obtain ⟨hresult, herrors⟩ := Mapped.mk.inj h
      obtain ⟨hnamed, hmapped⟩ := List.append_eq_nil_iff.mp herrors
      rcases hn : e.nameFields n with ⟨named, errors⟩
      rw [hn] at hresult hnamed hmapped
      obtain rfl : errors = [] := hnamed
      refine ⟨named, hn, ?_⟩
      rw [← hresult, ← hmapped]
      rfl

namespace Translates

variable {namer : Namer}

theorem const {c : Const} {t : Expr} (h : Translates namer (.const c) t) : t = .const c := by
  obtain ⟨named, hnamed, ht⟩ := h
  obtain ⟨-, h⟩ := finish_eq_iff.mp hnamed
  cases h
  obtain ⟨-, h⟩ := finish_eq_iff.mp ht
  cases h
  rfl

theorem null {t : Expr} (h : Translates namer .null t) : t = .null := by
  obtain ⟨named, hnamed, ht⟩ := h
  obtain ⟨-, h⟩ := finish_eq_iff.mp hnamed
  cases h
  obtain ⟨-, h⟩ := finish_eq_iff.mp ht
  cases h
  rfl

theorem symbol {name : String} {t : Expr} (h : Translates namer (.symbol name) t) :
    ∃ column, namer name = .ok column ∧ t = .symbol column := by
  obtain ⟨named, hnamed, ht⟩ := h
  obtain ⟨-, h⟩ := finish_eq_iff.mp hnamed
  rw [nameFieldStep] at h
  cases hcolumn : namer name with
  | error e => simp [hcolumn] at h
  | ok column =>
      obtain rfl : .symbol column = named := by simpa [hcolumn] using h
      obtain ⟨-, h⟩ := finish_eq_iff.mp ht
      cases h
      exact ⟨column, rfl, rfl⟩

theorem group {e t : Expr} (h : Translates namer (.group e) t) :
    ∃ e', Translates namer e e' ∧ t = .group e' := by
  obtain ⟨named, hnamed, ht⟩ := h
  obtain ⟨e', he, hstep⟩ := bottomUp_group_iff.mp hnamed
  cases hstep
  obtain ⟨e'', he', hstep⟩ := bottomUp_group_iff.mp ht
  cases hstep
  exact ⟨e'', ⟨e', he, he'⟩, rfl⟩

theorem binary {op : String} {left right t : Expr}
    (h : Translates namer (.binary op left right) t) :
    ∃ left' right', Translates namer left left' ∧ Translates namer right right' ∧
      Dialect.binary op left' right' = .ok t := by
  obtain ⟨named, hnamed, ht⟩ := h
  obtain ⟨l, r, hl, hr, hstep⟩ := bottomUp_binary_iff.mp hnamed
  cases hstep
  obtain ⟨l', r', hl', hr', hstep⟩ := bottomUp_binary_iff.mp ht
  exact ⟨l', r', ⟨l, hl, hl'⟩, ⟨r, hr, hr'⟩, hstep⟩

theorem list {es ms ts : List Expr}
    (hnamed : List.Forall₂ (fun e m => bottomUp (nameFieldStep namer) e = ⟨m, []⟩) es ms)
    (hts : List.Forall₂ (fun m t => bottomUp Dialect.step m = ⟨t, []⟩) ms ts) :
    List.Forall₂ (Translates namer) es ts := by
  induction hnamed generalizing ts with
  | nil =>
      cases hts
      exact .nil
  | cons he _ ih =>
      cases hts with
      | cons ht hts => exact .cons ⟨_, he, ht⟩ (ih hts)

theorem unary {op : String} {args : List Expr} {t : Expr}
    (h : Translates namer (.unary op args) t) :
    ∃ args', List.Forall₂ (Translates namer) args args' ∧ Dialect.unary op args' = .ok t := by
  obtain ⟨named, hnamed, ht⟩ := h
  obtain ⟨ms, hms, hstep⟩ := bottomUp_unary_iff.mp hnamed
  cases hstep
  obtain ⟨ts, hts, hstep⟩ := bottomUp_unary_iff.mp ht
  exact ⟨ts, list hms hts, hstep⟩

theorem call {name : String} {args : List Expr} {t : Expr}
    (h : Translates namer (.call name args) t) :
    ∃ args', List.Forall₂ (Translates namer) args args' ∧ Dialect.call name args' = .ok t := by
  obtain ⟨named, hnamed, ht⟩ := h
  obtain ⟨ms, hms, hstep⟩ := bottomUp_call_iff.mp hnamed
  cases hstep
  obtain ⟨ts, hts, hstep⟩ := bottomUp_call_iff.mp ht
  exact ⟨ts, list hms hts, hstep⟩

theorem array {items : List Expr} {t : Expr} (h : Translates namer (.array items) t) :
    ∃ items', List.Forall₂ (Translates namer) items items' ∧ t = .array items' := by
  obtain ⟨named, hnamed, ht⟩ := h
  obtain ⟨ms, hms, hstep⟩ := bottomUp_array_iff.mp hnamed
  cases hstep
  obtain ⟨ts, hts, hstep⟩ := bottomUp_array_iff.mp ht
  cases hstep
  exact ⟨ts, list hms hts, rfl⟩

end Translates

end Expr

/-! ## Values -/

section

variable {δ : Type} {E : Engine δ} {row : String → SqlValue δ} {namer : Namer}

/-- The fields of an event as a row of columns shows them. -/
def fieldsOf (namer : Namer) (row : String → SqlValue δ) (name : String) : Option (SqlValue δ) :=
  (namer name).toOption.map row

open EventQuery.Expr

theorem Literal.expr_value {l : Literal} (hfaults : l.faults = []) :
    ∃ w, l.value? = some w ∧ l.expr.sqlValue E row = some w := by
  cases l with
  | string raw => exact ⟨_, rfl, rfl⟩
  | boolean raw => exact ⟨_, rfl, rfl⟩
  | number raw =>
      cases hraw : evalNumber? raw with
      | none => simp [faults, hraw] at hfaults
      | some c => exact ⟨.ofConst c, by simp [value?, hraw], by simp [expr, hraw, sqlValue]⟩

theorem Literal.expr_const (l : Literal) : ∃ c, l.expr = .const c := by
  cases l <;> exact ⟨_, rfl⟩

theorem Literal.translates {l : Literal} {t : Expr} (h : Translates namer l.expr t) :
    t = l.expr := by
  obtain ⟨c, hc⟩ := l.expr_const
  rw [hc] at h ⊢
  exact h.const

theorem Field.translates {f : Field} {t : Expr} (h : Translates namer f.expr t) :
    ∃ w, fieldsOf namer row f.name = some w ∧ t.sqlValue E row = some w := by
  obtain ⟨column, hcolumn, rfl⟩ := h.symbol
  exact ⟨row column, by simp [fieldsOf, hcolumn, Except.toOption], rfl⟩

theorem Value.list_value {vs : List Value} {ts : List Expr}
    (ih : ∀ v ∈ vs, ∀ {t}, v.faults = [] → Translates namer v.expr t →
      ∃ w, v.value? E (fieldsOf namer row) = some w ∧ t.sqlValue E row = some w)
    (hfaults : listFaults vs = []) (h : List.Forall₂ (Translates namer) (exprs vs) ts) :
    ∃ ws, values? E (fieldsOf namer row) vs = some ws ∧
      List.Forall₂ (fun e v => e.sqlValue E row = some v) ts ws := by
  induction vs generalizing ts with
  | nil =>
      cases h
      exact ⟨[], rfl, .nil⟩
  | cons v vs ihvs =>
      obtain ⟨hv, hvs⟩ := List.append_eq_nil_iff.mp hfaults
      cases h with
      | cons ht hts =>
          obtain ⟨w, hw, hvalue⟩ := ih v List.mem_cons_self hv ht
          obtain ⟨ws, hws, hvalues⟩ := ihvs (fun v hv => ih v (List.mem_cons_of_mem _ hv)) hvs hts
          exact ⟨w :: ws, by simp [values?, hw, hws], .cons hvalue hvalues⟩

/-- A translated value has the value of the value it stands for. -/
theorem Value.translates_value {v : Value} {t : Expr} (hfaults : v.faults = [])
    (h : Translates namer v.expr t) :
    ∃ w, v.value? E (fieldsOf namer row) = some w ∧ t.sqlValue E row = some w := by
  induction v generalizing t with
  | null =>
      obtain rfl := h.null
      exact ⟨.null, rfl, rfl⟩
  | literal l =>
      obtain rfl := Literal.translates h
      exact Literal.expr_value hfaults
  | field f => exact Field.translates h
  | call name args ih =>
      obtain ⟨args', hargs, hstep⟩ := h.call
      obtain ⟨ws, hws, hvalues⟩ := list_value ih hfaults hargs
      obtain ⟨w, hw, hvalue⟩ := Dialect.call_value hvalues hstep
      exact ⟨w, by simp [value?, hws, hw], hvalue⟩
  | group v ih =>
      obtain ⟨e', he, rfl⟩ := h.group
      obtain ⟨w, hw, hvalue⟩ := ih hfaults he
      exact ⟨w, hw, hvalue⟩
  | arith op left right ihl ihr =>
      obtain ⟨hfl, hfr⟩ := List.append_eq_nil_iff.mp hfaults
      obtain ⟨left', right', hl, hr, hstep⟩ := h.binary
      obtain ⟨v, hv, hleft⟩ := ihl hfl hl
      obtain ⟨w, hw, hright⟩ := ihr hfr hr
      exact ⟨_, by simp [value?, hv, hw], Dialect.arith_value hleft hright hstep⟩

/-! ## Operands that the dialect looks at

The dialect asks of an operand whether it is a null, a string or a list.
A translated value answers as the value it stands for would. -/

theorem Value.translates_cases {v : Value} {t : Expr} (h : Translates namer v.expr t) :
    (v = .null ∧ t = .null) ∨ (∃ l, v = .literal l ∧ t = l.expr) ∨
      (t.isApplied = true ∧ v ≠ .null ∧ ∀ l, v ≠ .literal l) := by
  cases v with
  | null => exact .inl ⟨rfl, h.null⟩
  | literal l => exact .inr (.inl ⟨l, rfl, Literal.translates h⟩)
  | field f =>
      obtain ⟨column, -, rfl⟩ := h.symbol
      exact .inr (.inr ⟨rfl, by simp, by simp⟩)
  | call name args =>
      obtain ⟨args', -, hstep⟩ := h.call
      have happlied := Expr.isApplied_of_isCompound (Dialect.call_isCompound hstep)
      exact .inr (.inr ⟨happlied, by simp, by simp⟩)
  | group v =>
      obtain ⟨e', -, rfl⟩ := h.group
      exact .inr (.inr ⟨rfl, by simp, by simp⟩)
  | arith op left right =>
      obtain ⟨left', right', -, -, hstep⟩ := h.binary
      obtain rfl : Expr.binary op.token left' right' = t := by
        cases op <;> exact Except.ok.inj hstep
      exact .inr (.inr ⟨rfl, by simp, by simp⟩)

theorem Value.translates_null_iff {v : Value} {t : Expr} (h : Translates namer v.expr t) :
    t = .null ↔ v = .null := by
  rcases translates_cases h with ⟨rfl, rfl⟩ | ⟨l, rfl, rfl⟩ | ⟨happlied, hnull, -⟩
  · simp
  · obtain ⟨c, hc⟩ := l.expr_const
    simp [hc]
  · refine iff_of_false ?_ hnull
    rintro rfl
    cases happlied

/-- Only strings are read as patterns. -/
theorem Dialect.operandFor_of_ne_string (op : LookupOp) {e : Expr}
    (h : ∀ s, e ≠ .const (.string s)) : operandFor op e = e := by
  unfold operandFor likeOperand
  split
  · split
    · exact absurd rfl (h _)
    · rfl
  · rfl

theorem Literal.operand_value {l : Literal} (op : LookupOp) (hfaults : l.faults = []) :
    ∃ w, l.operand? op = some w ∧ (Dialect.operandFor op l.expr).sqlValue E row = some w := by
  cases l with
  | string raw =>
      refine ⟨_, rfl, ?_⟩
      rw [expr, Dialect.operandFor]
      cases op.takesPattern <;> rfl
  | boolean raw =>
      rw [expr, Dialect.operandFor_of_ne_string op (by simp)]
      exact ⟨_, rfl, rfl⟩
  | number raw =>
      cases hraw : evalNumber? raw with
      | none => simp [faults, hraw] at hfaults
      | some c =>
          have hc := evalNumber?_ne_string hraw
          rw [expr, hraw, Option.getD_some, Dialect.operandFor_of_ne_string op (by simpa using hc)]
          exact ⟨.ofConst c, by simp [operand?, value?, hraw], rfl⟩

theorem Literal.operands_value {items : List Literal} (op : LookupOp)
    (hfaults : items.flatMap faults = []) :
    ∃ ws, items.mapM (operand? op) = some ws ∧
      List.Forall₂ (fun e w => (Dialect.operandFor op e).sqlValue E row = some w)
        (items.map expr) ws := by
  induction items with
  | nil => exact ⟨[], rfl, .nil⟩
  | cons l items ih =>
      obtain ⟨hl, hitems⟩ := List.append_eq_nil_iff.mp hfaults
      obtain ⟨w, hw, hvalue⟩ : ∃ w, l.operand? op = some w ∧
          (Dialect.operandFor op l.expr).sqlValue E row = some w := operand_value op hl
      obtain ⟨ws, hws, hvalues⟩ := ih hitems
      exact ⟨w :: ws, by simp [List.mapM_cons, hw, hws], .cons hvalue hvalues⟩

theorem Literal.translates_list {items : List Literal} {ts : List Expr}
    (h : List.Forall₂ (Translates namer) (items.map expr) ts) : ts = items.map expr := by
  have heq : List.Forall₂ (· = ·) ts (items.map expr) := by
    rw [List.forall₂_map_right_iff]
    exact ((List.forall₂_map_left_iff.mp h).imp fun l t => translates).flip
  rwa [List.forall₂_eq_eq_eq] at heq

theorem Value.translates_ne_array {v : Value} {t : Expr} (h : Translates namer v.expr t)
    (items : List Expr) : t ≠ .array items := by
  rcases translates_cases h with ⟨-, rfl⟩ | ⟨l, -, rfl⟩ | ⟨happlied, -⟩
  · simp
  · obtain ⟨c, hc⟩ := l.expr_const
    simp [hc]
  · rintro rfl
    cases happlied

theorem Dialect.inInsensitive_ne_ok {negated : Bool} {left right t : Expr}
    (hright : ∀ items, right ≠ .array items) :
    binary (LookupOp.inListInsensitive.name negated) left right ≠ .ok t := by
  rw [binary_lookup]
  cases right with
  | array items => exact absurd rfl (hright items)
  | _ => intro h; cases h

/-- A value as the operand of a lookup. -/
theorem Value.translates_operand {v : Value} {t : Expr} (op : LookupOp) (hfaults : v.faults = [])
    (h : Translates namer v.expr t) :
    ∃ w, v.operand? E (fieldsOf namer row) op = some w ∧
      (Dialect.operandFor op t).sqlValue E row = some w := by
  rcases translates_cases h with ⟨rfl, rfl⟩ | ⟨l, rfl, rfl⟩ | ⟨happlied, -, hliteral⟩
  · rw [Dialect.operandFor_of_ne_string op (by simp)]
    exact ⟨.null, rfl, rfl⟩
  · exact Literal.operand_value op hfaults
  · obtain ⟨w, hw, hvalue⟩ :
        ∃ w, v.value? E (fieldsOf namer row) = some w ∧ t.sqlValue E row = some w :=
      translates_value hfaults h
    have hoperand : v.operand? E (fieldsOf namer row) op = v.value? E (fieldsOf namer row) := by
      cases v with
      | literal l => exact absurd rfl (hliteral l)
      | _ => rfl
    rw [hoperand, Dialect.operandFor_of_ne_string op (by rintro s rfl; cases happlied)]
    exact ⟨w, hw, hvalue⟩

/-- The operands of a translated lookup. The step that makes the lookup
refuses one value in place of a list where a list is wanted. -/
theorem LookupTarget.translates_operands {target : LookupTarget} {op : LookupOp} {negated : Bool}
    {left t s : Expr} (hfaults : target.faults = []) (h : Translates namer target.expr t)
    (hstep : Dialect.binary (op.name negated) left t = .ok s) :
    ∃ ws, target.operands? E (fieldsOf namer row) op = some ws ∧
      List.Forall₂ (fun e w => (Dialect.operandFor op e).sqlValue E row = some w)
        (Dialect.operands t) ws := by
  cases target with
  | list items =>
      obtain ⟨ts, hitems, rfl⟩ := h.array
      obtain rfl := Literal.translates_list hitems
      exact Literal.operands_value op hfaults
  | value v =>
      have hop : op ≠ .inListInsensitive := by
        rintro rfl
        exact Dialect.inInsensitive_ne_ok (Value.translates_ne_array h) hstep
      obtain ⟨w, hw, hvalue⟩ := Value.translates_operand (E := E) op hfaults h
      rw [Dialect.operands_of_ne_array (Value.translates_ne_array h)]
      exact ⟨[w], by simp [operands?, hop, hw], .cons hvalue .nil⟩

/-! ## Conditions -/

theorem Condition.comparison_value {op : CompareOp} {left right : Value} {left' right' t : Expr}
    {v : SqlValue δ} (hv : left.value? E (fieldsOf namer row) = some v)
    (hleft : left'.sqlValue E row = some v) (hfaults : right.faults = [])
    (hr : Translates namer right.expr right')
    (hstep : Dialect.binary op.token left' right' = .ok t) :
    ∃ w, (Condition.comparison op left right).value? E (fieldsOf namer row) = some w ∧
      t.sqlValue E row = some w := by
  obtain ⟨w, hw, hright⟩ :
      ∃ w, right.value? E (fieldsOf namer row) = some w ∧ right'.sqlValue E row = some w :=
    Value.translates_value hfaults hr
  by_cases hnull : right = .null
  · subst hnull
    obtain rfl := hr.null
    cases op with
    | eq => exact ⟨_, by simp [value?, hv], Dialect.eq_null_value hleft hstep⟩
    | notEq => exact ⟨_, by simp [value?, hv], Dialect.notEq_null_value hleft hstep⟩
    | _ =>
        exact ⟨_, by simp [value?, hv, hw], Dialect.compare_value (by simp) hleft hright hstep⟩
  · have hnull' : right' = .null → op ≠ .eq ∧ op ≠ .notEq := fun h =>
      absurd ((Value.translates_null_iff hr).mp h) hnull
    exact ⟨_, by simp [value?, hv, hw, hnull], Dialect.compare_value hnull' hleft hright hstep⟩

/-- A translated condition has the value of the condition it stands for. -/
theorem Condition.translates_value {c : Condition} {t : Expr} (hfaults : c.faults = [])
    (h : Translates namer c.expr t) :
    ∃ w, c.value? E (fieldsOf namer row) = some w ∧ t.sqlValue E row = some w := by
  induction c generalizing t with
  | boolean raw =>
      obtain rfl := h.const
      exact ⟨_, rfl, rfl⟩
  | not c ih =>
      obtain ⟨args', hargs, hstep⟩ := h.unary
      match args', hargs with
      | [c'], .cons hc .nil =>
          obtain ⟨w, hw, hvalue⟩ := ih hfaults hc
          exact ⟨E.not w, by simp [value?, hw], Dialect.not_value hvalue hstep⟩
  | group c ih =>
      obtain ⟨e', he, rfl⟩ := h.group
      obtain ⟨w, hw, hvalue⟩ := ih hfaults he
      exact ⟨w, hw, hvalue⟩
  | comparison op left right =>
      obtain ⟨hfl, hfr⟩ := List.append_eq_nil_iff.mp hfaults
      obtain ⟨left', right', hl, hr, hstep⟩ := h.binary
      obtain ⟨v, hv, hleft⟩ := Value.translates_value hfl hl
      exact comparison_value hv hleft hfr hr hstep
  | lookup field negated op target =>
      obtain ⟨hfield, htarget⟩ := List.append_eq_nil_iff.mp hfaults
      obtain ⟨left', right', hl, hr, hstep⟩ := h.binary
      obtain ⟨v, hv, hleft⟩ := Field.translates hl
      obtain ⟨ws, hws, hoperands⟩ := LookupTarget.translates_operands htarget hr hstep
      exact ⟨_, by simp [value?, hv, hws], Dialect.lookup_value hleft hoperands hstep⟩
  | call name args => exact Value.translates_value (v := .call name args) hfaults h
  | notCall name args =>
      obtain ⟨args', hargs, hstep⟩ := h.unary
      match args', hargs with
      | [c'], .cons hc .nil =>
          obtain ⟨w, hw, hvalue⟩ := Value.translates_value (v := .call name args) hfaults hc
          refine ⟨E.not w, ?_, Dialect.not_value hvalue hstep⟩
          obtain ⟨vs, hvs, hcall⟩ := Option.bind_eq_some_iff.mp hw
          simp [value?, hvs, hcall]
  | logical op left right ihl ihr =>
      obtain ⟨hfl, hfr⟩ := List.append_eq_nil_iff.mp hfaults
      obtain ⟨left', right', hl, hr, hstep⟩ := h.binary
      obtain ⟨v, hv, hleft⟩ := ihl hfl hl
      obtain ⟨w, hw, hright⟩ := ihr hfr hr
      cases op with
      | and => exact ⟨_, by simp [value?, hv, hw], Dialect.and_value hleft hright hstep⟩
      | or => exact ⟨_, by simp [value?, hv, hw], Dialect.or_value hleft hright hstep⟩

/-! ## Queries -/

theorem Category.translates_value {categoryField text : String} {t : Expr}
    (h : Translates namer (.binary "==" (.symbol categoryField) (.string text)) t) :
    ∃ w, categoryValue? E (fieldsOf namer row) categoryField text = some w ∧
      t.sqlValue E row = some w := by
  obtain ⟨left', right', hl, hr, hstep⟩ := h.binary
  obtain ⟨v, hv, hleft⟩ :
      ∃ v, fieldsOf namer row categoryField = some v ∧ left'.sqlValue E row = some v :=
    Field.translates (f := ⟨categoryField, false⟩) hl
  obtain rfl := hr.const
  have hstep : Dialect.binary CompareOp.eq.token left' (.const (.string text)) = .ok t := hstep
  refine ⟨.ofTruth (E.compare .eq v (.text text)), by simp [categoryValue?, hv], ?_⟩
  exact Dialect.compare_value (by simp) hleft rfl hstep

/-- A translated query has the value of the query it stands for. -/
theorem SimpleQuery.translates_value {q : SimpleQuery} {categoryField : String} {e t : Expr}
    (hfaults : q.faults = []) (he : q.expr? categoryField = some e) (h : Translates namer e t) :
    ∃ w, q.value? E (fieldsOf namer row) categoryField = some w ∧ t.sqlValue E row = some w := by
  obtain ⟨category, condition⟩ := q
  cases htext : category.text? with
  | none =>
      cases condition with
      | none => simp [expr?, Category.expr?, htext] at he
      | some c =>
          obtain rfl : c.expr = e := by simpa [expr?, Category.expr?, htext] using he
          simpa [value?, htext] using Condition.translates_value hfaults h
  | some text =>
      cases condition with
      | none =>
          obtain rfl : .binary "==" (.symbol categoryField) (.string text) = e := by
            simpa [expr?, Category.expr?, htext] using he
          simpa [value?, htext] using Category.translates_value h
      | some c =>
          obtain rfl : .binary "and" c.expr
              (.binary "==" (.symbol categoryField) (.string text)) = e := by
            simpa [expr?, Category.expr?, htext] using he
          obtain ⟨left', right', hl, hr, hstep⟩ := h.binary
          obtain ⟨v, hv, hleft⟩ := Condition.translates_value (E := E) hfaults hl
          obtain ⟨w, hw, hright⟩ := Category.translates_value hr
          exact ⟨E.and v w, by simp [value?, htext, hv, hw],
            Dialect.and_value hleft hright hstep⟩

theorem SimpleQuery.value?_of_expr?_eq_none {q : SimpleQuery} {categoryField : String}
    (he : q.expr? categoryField = none) (fields : String → Option (SqlValue δ)) :
    q.value? E fields categoryField = some (.bool true) := by
  obtain ⟨category, condition⟩ := q
  cases htext : category.text? with
  | none =>
      cases condition with
      | none => simp [value?, htext]
      | some c => simp [expr?, Category.expr?, htext] at he
  | some text => cases condition <;> simp [expr?, Category.expr?, htext] at he

end

/-! ## The headline theorem -/

/-- The column that a field reads under the options, if the namer gives
it one. -/
def Options.column? (o : Options) (name : String) : Option String :=
  (o.namer.getD .identity name).toOption

/-- The value of a clause over a row. A query that matches everything has
no clause; a placeholder reads its parameter. -/
def clauseValue? {δ : Type} (E : Engine δ) (row : String → SqlValue δ) :
    Option Clause → Option (SqlValue δ)
  | none => some (.bool true)
  | some c => c.tree.sqlValue E (c.parameters.bind row)

/-- The value of the clause of an expression is that of the expression in
columns and SQL operators, with or without extraction. -/
theorem Expr.clause_value {δ : Type} {E : Engine δ} {row : String → SqlValue δ} {o : Options}
    {e : Expr} (hfree : o.extractParameters = true → (e.toSql o.namer).result.PlaceholderFree) :
    clauseValue? E row (some (e.clause o)) = (e.toSql o.namer).result.sqlValue E row := by
  unfold Expr.clause clauseValue?
  cases hextract : o.extractParameters with
  | false => rfl
  | true => exact extract_value (hfree hextract)

/-- A quoted path is no placeholder. -/
theorem Namer.columnPathText_ne_placeholder (name : String) (n : Nat) (c : Const) :
    columnPathText name ≠ placeholder n c := by
  intro h
  have hlists := congrArg String.toList h
  rw [toList_placeholder] at hlists
  simp [columnPathText] at hlists

end EventQuery
