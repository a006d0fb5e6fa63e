import EventQuery.Proofs.FilterStages
import EventQuery.Proofs.Offences

/-!
# The soft errors of a query

What a filter reports can be read off the query. First come the fields
that the namer has no column for, from left to right; then the nodes of
the query that offend, each after the nodes below it.

The two passes are seen as one, `Expr.translated`, the dialect over the
tree in columns. A node goes through it after its parts, and what it adds
to the errors is what the dialect says about this one node; the inductions
over values and conditions put the nodes in order.
-/

namespace EventQuery

/-! ## Both passes over an expression -/

/-- Why a name has no column. -/
def Namer.error? (namer : Namer) (name : String) : Option SoftError :=
  match namer name with
  | .ok _ => none
  | .error e => some (.fieldName e)

namespace Expr

/-- The dialect over the tree in columns. -/
def translated (namer : Namer) (e : Expr) : Mapped Expr := (e.nameFields namer).result.toDialect

theorem bottomUpList_errors (step : Expr → Except SoftError Expr) (es : List Expr) :
    (bottomUpList step es).errors = es.flatMap fun e => (bottomUp step e).errors := by
  induction es with
  | nil => rfl
  | cons e es ih => simp only [bottomUpList, ih, List.flatMap_cons]

variable (namer : Namer)

/-! A node is finished after its parts, whichever pass it goes through;
only a symbol is changed by the first pass. -/

theorem translated_group (e : Expr) : (Expr.group e).translated namer =
    .finish Dialect.step ⟨.group (e.translated namer).result, (e.translated namer).errors⟩ := rfl

theorem translated_binary (op : String) (left right : Expr) :
    (Expr.binary op left right).translated namer =
      .finish Dialect.step
        ⟨.binary op (left.translated namer).result (right.translated namer).result,
          (left.translated namer).errors ++ (right.translated namer).errors⟩ := rfl

theorem translated_binary_errors (op : String) (left right : Expr) :
    ((Expr.binary op left right).translated namer).errors =
      (left.translated namer).errors ++ (right.translated namer).errors ++
        (failure? (Dialect.binary op (left.translated namer).result
          (right.translated namer).result)).toList := by
  rw [translated_binary, Mapped.finish_errors]
  rfl

theorem translated_list (es : List Expr) :
    bottomUpList Dialect.step (bottomUpList (nameFieldStep namer) es).result =
      ⟨es.map fun e => (e.translated namer).result,
        es.flatMap fun e => (e.translated namer).errors⟩ := by
  induction es with
  | nil => rfl
  | cons e es ih =>
      rw [bottomUpList, bottomUpList, ih]
      rfl

theorem translated_unary (op : String) (args : List Expr) : (Expr.unary op args).translated namer =
    .finish Dialect.step ⟨.unary op (args.map fun e => (e.translated namer).result),
      args.flatMap fun e => (e.translated namer).errors⟩ := by
  exact congrArg (fun r : Mapped (List Expr) =>
    Mapped.finish Dialect.step ⟨.unary op r.result, r.errors⟩) (translated_list namer args)

theorem translated_call (name : String) (args : List Expr) :
    (Expr.call name args).translated namer =
      .finish Dialect.step ⟨.call name (args.map fun e => (e.translated namer).result),
        args.flatMap fun e => (e.translated namer).errors⟩ := by
  exact congrArg (fun r : Mapped (List Expr) =>
    Mapped.finish Dialect.step ⟨.call name r.result, r.errors⟩) (translated_list namer args)

theorem translated_array (items : List Expr) : (Expr.array items).translated namer =
    ⟨.array (items.map fun e => (e.translated namer).result),
      items.flatMap fun e => (e.translated namer).errors⟩ := by
  exact congrArg (fun r : Mapped (List Expr) => Mapped.mk (Expr.array r.result) r.errors)
    (translated_list namer items)

/-- A field becomes its column, or a fault where there is none. -/
theorem translated_symbol (name : String) : (Expr.symbol name).translated namer =
    ⟨match namer name with
      | .ok column => .symbol column
      | .error e => .fault e.message, []⟩ := by
  unfold translated nameFields
  rw [bottomUp, Mapped.finish, nameFieldStep]
  cases namer name <;> rfl

theorem translated_not (e : Expr) : (Expr.unary "not" [e]).translated namer =
    ⟨.unary "NOT" [(e.translated namer).result], (e.translated namer).errors⟩ := by
  rw [translated_unary]
  exact congrArg (Mapped.mk _) (List.append_nil _)

theorem translated_logic (op : LogicOp) :
    ∃ sqlOp, ∀ left right, (Expr.binary op.token left right).translated namer =
      ⟨.binary sqlOp (left.translated namer).result (right.translated namer).result,
        (left.translated namer).errors ++ (right.translated namer).errors⟩ := by
  cases op with
  | and => exact ⟨"AND", fun _ _ => rfl⟩
  | or => exact ⟨"OR", fun _ _ => rfl⟩

theorem translated_arith (op : ArithOp) (left right : Expr) :
    (Expr.binary op.token left right).translated namer =
      ⟨.binary op.token (left.translated namer).result (right.translated namer).result,
        (left.translated namer).errors ++ (right.translated namer).errors⟩ := by
  cases op <;> rfl

theorem translated_identity (e : Expr) : e.translated .identity = e.toDialect := by
  rw [translated, nameFields_identity]

theorem nameFields_errors (e : Expr) :
    (e.nameFields namer).errors = e.symbols.filterMap namer.error? := by
  have hother : ∀ node : Mapped Expr, (∀ name, node.result ≠ .symbol name) →
      (Mapped.finish (nameFieldStep namer) node).errors = node.errors := by
    intro node hnode
    have hok : nameFieldStep namer node.result = .ok node.result := by
      cases hresult : node.result with
      | symbol name => exact absurd hresult (hnode name)
      | _ => rfl
    rw [Mapped.finish_errors, hok]
    exact List.append_nil _
  have hlist : ∀ es : List Expr,
      (∀ e ∈ es, (e.nameFields namer).errors = e.symbols.filterMap namer.error?) →
      (bottomUpList (nameFieldStep namer) es).errors
        = (listSymbols es).filterMap namer.error? := by
    intro es hes
    rw [bottomUpList_errors, listSymbols_eq_flatMap, List.filterMap_flatMap]
    exact List.flatMap_congr hes
  induction e with
  | symbol name =>
      unfold nameFields
      rw [bottomUp, Mapped.finish_errors, nameFieldStep, symbols]
      cases h : namer name <;> simp [Namer.error?, failure?, h]
  | group e ih => exact (hother _ (by simp)).trans ih
  | binary op left right ihl ihr =>
      refine (hother _ (by simp)).trans ?_
      rw [symbols, List.filterMap_append, ← ihl, ← ihr]
      rfl
  | unary op args ih => exact (hother _ (by simp)).trans (hlist args ih)
  | call name args ih => exact (hother _ (by simp)).trans (hlist args ih)
  | array items ih => exact (hother _ (by simp)).trans (hlist items ih)
  | _ => exact hother _ (by simp)

/-- The errors of both passes. No namer is as good as one that keeps every
name. -/
theorem toSql_errors (e : Expr) (namer : Option Namer) :
    (e.toSql namer).errors = e.symbols.filterMap (namer.getD .identity).error? ++
      (e.translated (namer.getD .identity)).errors := by
  rw [← nameFields_errors]
  cases namer with
  | none =>
      rw [translated, Option.getD_none, nameFields_identity]
      rfl
  | some n => rfl

theorem toSql_result (e : Expr) (namer : Option Namer) :
    (e.toSql namer).result = (e.translated (namer.getD .identity)).result := by
  cases namer with
  | none =>
      rw [translated, Option.getD_none, nameFields_identity]
      rfl
  | some n => rfl

end Expr

/-! ## Errors of queries -/

section

variable (namer : Namer)

open EventQuery.Expr

theorem Literal.translated_expr (l : Literal) : l.expr.translated namer = ⟨l.expr, []⟩ := by
  cases l <;> rfl

/-- No value becomes a list. -/
theorem Value.translated_ne_array (v : Value) (items : List Expr) :
    (v.expr.translated namer).result ≠ .array items := by
  cases v with
  | null => exact fun h => by cases h
  | literal l =>
      rw [expr, l.translated_expr]
      cases l <;> exact fun h => by cases h
  | field f =>
      rw [expr, Field.expr, translated_symbol]
      cases namer f.name <;> exact fun h => by cases h
  | call name args =>
      rw [expr, translated_call]
      exact Dialect.finish_ne_array rfl items
  | group v => exact fun h => by cases h
  | arith op left right => cases op <;> exact fun h => by cases h

theorem Value.exprs_errors {vs : List Value}
    (ih : ∀ v ∈ vs, (v.expr.translated namer).errors = v.nodes.filterMap Node.complaint?) :
    ((exprs vs).flatMap fun e => (e.translated namer).errors)
      = (listNodes vs).filterMap Node.complaint? := by
  rw [exprs_eq_map, List.flatMap_map, listNodes_eq_flatMap, List.filterMap_flatMap]
  exact List.flatMap_congr ih

/-- A call fails if it offends, whatever becomes of its arguments. -/
theorem Value.call_failure? (name : CallName) (args : List Value) :
    failure? (Dialect.step
        (.call name.text ((exprs args).map fun e => (e.translated namer).result)))
      = name.complaint? args.length := by
  have hlength : ((exprs args).map fun e => (e.translated namer).result).length = args.length := by
    rw [List.length_map, exprs_eq_map, List.length_map]
  rw [← hlength]
  exact Dialect.call_failure? name _

/-- A call reports its arguments, then itself. -/
theorem Value.call_errors {name : CallName} {args : List Value}
    (ih : ∀ v ∈ args, (v.expr.translated namer).errors = v.nodes.filterMap Node.complaint?) :
    ((Expr.call name.text (exprs args)).translated namer).errors =
      (listNodes args).filterMap Node.complaint? ++ (name.complaint? args.length).toList := by
  rw [translated_call, Mapped.finish_errors, call_failure?, exprs_errors namer ih]

theorem Value.translated_errors (v : Value) :
    (v.expr.translated namer).errors = v.nodes.filterMap Node.complaint? := by
  induction v with
  | null => rfl
  | literal l =>
      rw [expr, l.translated_expr]
      rfl
  | field f =>
      rw [expr, Field.expr, translated_symbol]
      rfl
  | call name args ih =>
      rw [expr, call_errors namer ih, nodes, Node.complaints_concat]
      rfl
  | group v ih =>
      rw [expr, translated_group, Mapped.finish_errors, ih, nodes, Node.complaints_concat]
      rfl
  | arith op left right ihl ihr =>
      rw [expr, translated_binary_errors, ihl, ihr, Dialect.arith_failure?, nodes,
        Node.complaints_concat, List.filterMap_append]
      rfl

/-- A call in a condition reports what the same call in a value does. -/
theorem Condition.call_errors (name : CallName) (args : List Value) :
    ((Expr.call name.text (Value.exprs args)).translated namer).errors =
      (Value.listNodes args).filterMap Node.complaint? ++ (name.complaint? args.length).toList :=
  Value.call_errors namer fun v _ => v.translated_errors namer

theorem LookupTarget.translated_list (items : List Literal) :
    (LookupTarget.list items).expr.translated namer = ⟨.array (items.map Literal.expr), []⟩ := by
  rw [expr, translated_array]
  simp [Literal.translated_expr]

theorem LookupTarget.translated_errors (target : LookupTarget) :
    (target.expr.translated namer).errors = target.nodes.filterMap Node.complaint? := by
  cases target with
  | list items =>
      rw [translated_list, nodes, List.filterMap_map]
      exact (List.filterMap_eq_nil_iff.mpr fun l _ => rfl).symm
  | value v => exact v.translated_errors namer

/-- A lookup fails if it offends; that its list is not empty is what keeps
it from failing otherwise. -/
theorem LookupTarget.failure?_eq {target : LookupTarget} (h : target.WellFormed) (field : Field)
    (negated : Bool) (op : LookupOp) (left : Expr) :
    failure? (Dialect.binary (op.name negated) left (target.expr.translated namer).result) =
      (Node.condition (.lookup field negated op target)).complaint? := by
  cases target with
  | list items =>
      rw [translated_list]
      exact Dialect.lookup_list_failure? op negated left (by simpa using h.1)
  | value v => exact Dialect.lookup_value_failure? op negated left (v.translated_ne_array namer)

theorem Condition.translated_errors {c : Condition} (h : c.WellFormed) :
    (c.expr.translated namer).errors = c.nodes.filterMap Node.complaint? := by
  induction c with
  | boolean raw => rfl
  | not c ih =>
      rw [expr, translated_unary, Mapped.finish_errors, nodes, Node.complaints_concat, ← ih h.1]
      simp [failure?, Dialect.step, Dialect.unary, Node.complaint?]
  | group c ih =>
      rw [expr, translated_group, Mapped.finish_errors, ih h, nodes, Node.complaints_concat]
      rfl
  | comparison op left right =>
      rw [expr, translated_binary_errors, Value.translated_errors, Value.translated_errors,
        Dialect.compare_failure?, nodes, Node.complaints_concat, List.filterMap_append]
      rfl
  | lookup field negated op target =>
      rw [expr, translated_binary_errors, LookupTarget.failure?_eq namer h.2 field, nodes,
        Node.complaints_concat, Field.expr, translated_symbol, LookupTarget.translated_errors]
      rfl
  | call name args =>
      rw [expr, call_errors, nodes, Node.complaints_concat]
      rfl
  | notCall name args =>
      rw [expr, translated_unary, Mapped.finish_errors, nodes, Node.complaints_concat]
      simp [failure?, Dialect.step, Dialect.unary, Node.complaint?, call_errors]
  | logical op left right ihl ihr =>
      rw [expr, translated_binary_errors, ihl h.1, ihr h.2.1, Dialect.logic_failure?, nodes,
        Node.complaints_concat, List.filterMap_append]
      rfl

theorem Category.translated_errors (categoryField text : String) :
    ((Expr.binary "==" (.symbol categoryField) (.string text)).translated namer).errors = [] := by
  rw [translated_binary_errors, translated_symbol]
  rfl

/-- The dialect reports the nodes of a query that offend. The test of the
category adds nothing. -/
theorem SimpleQuery.translated_errors {q : SimpleQuery} (h : q.WellFormed) {categoryField : String}
    {e : Expr} (he : q.expr? categoryField = some e) :
    (e.translated namer).errors = q.nodes.filterMap Node.complaint? := by
  unfold nodes
  rcases expr?_cases he with ⟨c, text, hc, -, rfl⟩ | ⟨c, hc, -, rfl⟩ | ⟨text, hc, -, rfl⟩
  · have hand := translated_binary_errors namer LogicOp.and.token c.expr
      (.binary "==" (.symbol categoryField) (.string text))
    rw [Dialect.logic_failure?, Category.translated_errors,
      Condition.translated_errors namer (h.2 c hc)] at hand
    rw [hc]
    exact hand.trans (by simp)
  · rw [hc]
    exact Condition.translated_errors namer (h.2 c hc)
  · rw [hc]
    exact Category.translated_errors namer categoryField text

end

/-! ## The headline theorem -/

/-- The names in the expression of a query: its fields in order and, if
there is a test of the category, the field that holds it. -/
theorem SimpleQuery.symbols_eq (q : SimpleQuery) (categoryField : String) :
    (q.expr? categoryField).elim [] Expr.symbols = q.fields.map Field.name ++
      if q.category.text?.isSome then [categoryField] else [] := by
  obtain ⟨category, condition⟩ := q
  cases condition <;> cases htext : category.text? <;>
    simp [expr?, fields, Category.expr?, htext, Expr.symbols, Expr.string, Condition.expr_symbols]

/-- The errors that no query leads to: names of operators that no query
writes, a lookup without a value, and arguments that are missing although
their number was accepted. -/
def SoftError.isFallback : SoftError → Bool
  | unknownBinary _ | unknownUnary _ | emptyLookup => true
  | missingOperand _ | missingAddress _ | missingRange _ => true
  | _ => false

theorem Namer.error?_not_fallback {namer : Namer} {name : String} {x : SoftError}
    (h : namer.error? name = some x) : x.isFallback = false := by
  unfold Namer.error? at h
  split at h <;> cases h
  rfl

theorem CallName.complaint?_not_fallback {f : CallName} {count : Nat} {x : SoftError}
    (h : f.complaint? count = some x) : x.isFallback = false := by
  unfold complaint? complaint at h
  split at h
  · obtain rfl := Option.some.inj h
    split
    · rfl
    · split <;> rfl
  · cases h

theorem Node.complaint?_not_fallback {n : Node} {x : SoftError} (h : n.complaint? = some x) :
    x.isFallback = false := by
  unfold complaint? at h
  split at h
  · split at h <;> cases h
    rfl
  · exact CallName.complaint?_not_fallback h
  · exact CallName.complaint?_not_fallback h
  · exact CallName.complaint?_not_fallback h
  · cases h

/-- A query without an expression has no condition. -/
theorem SimpleQuery.nodes_of_expr?_eq_none {q : SimpleQuery} {categoryField : String}
    (h : q.expr? categoryField = none) : q.nodes = [] := by
  rw [nodes, (expr?_eq_none_iff.mp h).1]
  rfl

/-- The errors of the filter of a query. -/
theorem SimpleQuery.filter_errors {q : SimpleQuery} (h : q.WellFormed) (o : Options) :
    (Filter.ofClause? ((q.expr? o.categoryField).map fun e => e.clause o)).errors =
      ((q.expr? o.categoryField).elim [] Expr.symbols).filterMap (o.namer.getD .identity).error? ++
        q.nodes.filterMap Node.complaint? := by
  cases he : q.expr? o.categoryField with
  | none =>
      rw [nodes_of_expr?_eq_none he]
      rfl
  | some e =>
      rw [← translated_errors (o.namer.getD .identity) h he]
      exact (e.clause_errors o).trans (e.toSql_errors o.namer)

/-- **Soft errors are predicted by the query.** A text that can be lowered
has a filter, whatever the namer. Its errors are those of the names in the
expression without a column, from left to right, and then one for each
node of the query that offends, in the order in which the nodes are
finished. No other error is ever reported. -/
theorem errors_eq_complaints {text categoryField : String} {e? : Option Expr}
    (hlower : lowerText text categoryField = .ok e?) (namer : Option Namer) (extract : Bool) :
    ∃ q f, parse text = .ok ⟨.simple q, []⟩ ∧
      Filter.ofText ⟨categoryField, namer, extract⟩ text = .ok f ∧
      f.errors = (e?.elim [] Expr.symbols).filterMap (namer.getD .identity).error? ++
        q.nodes.filterMap Node.complaint? ∧
      e?.elim [] Expr.symbols = q.fields.map Field.name ++
        (if q.category.text?.isSome then [categoryField] else []) ∧
      (∀ n : Node, n.complaint?.isSome = true ↔ n.Offends) ∧
      ∀ x ∈ f.errors, x.isFallback = false := by
  obtain ⟨q, hparse, hfaults, rfl⟩ := lowerText_eq_ok_iff.mp hlower
  have hq : q.WellFormed := (ofText_wellFormed (ofText_of_parse hparse)).body
  have herrors := SimpleQuery.filter_errors hq ⟨categoryField, namer, extract⟩
  refine ⟨q, _, hparse, Filter.ofText_of_parse hparse hfaults, herrors, q.symbols_eq categoryField,
    Node.complaint?_isSome_iff, fun x hx => ?_⟩
  rw [herrors] at hx
  rcases List.mem_append.mp hx with hx | hx
  · obtain ⟨name, -, hname⟩ := List.mem_filterMap.mp hx
    exact Namer.error?_not_fallback hname
  · obtain ⟨n, -, hn⟩ := List.mem_filterMap.mp hx
    exact Node.complaint?_not_fallback hn

theorem errors_eq_complaints_nested :
    lowerText "file where length(between(a, 1, 2), b) == 3 or a not in~ b" "event.category" =
      .ok (some (.binary "and" (.binary "or" (.binary "==" (.call "length" [.call "between"
          [.symbol "a", .const (.int 1), .const (.int 2)], .symbol "b"]) (.const (.int 3)))
        (.binary "not in~" (.symbol "a") (.symbol "b")))
        (.binary "==" (.symbol "event.category") (.string "file")))) ∧
    ∃ f, Filter.ofText ⟨"event.category", some (.denying "a" "no"), false⟩
        "file where length(between(a, 1, 2), b) == 3 or a not in~ b" = .ok f ∧
      f.errors = [.fieldName (.invalid "a" "no"), .fieldName (.invalid "a" "no"),
        .notImplemented "between", .arity "length" (.exactly 1) 2, .needsList "not in~"] := by
  have hread : parse "file where length(between(a, 1, 2), b) == 3 or a not in~ b" =
      .ok ⟨.simple ⟨.name "file", some (.logical .or (.comparison .eq (.call ⟨.length, false⟩
        [.call ⟨.between, false⟩ [.field ⟨"a", false⟩, .literal (.number "1"),
          .literal (.number "2")], .field ⟨"b", false⟩]) (.literal (.number "3")))
        (.lookup ⟨"a", false⟩ true .inListInsensitive (.value (.field ⟨"b", false⟩))))⟩, []⟩ :=
    parse_of_finish rfl rfl
  have hlower : lowerText "file where length(between(a, 1, 2), b) == 3 or a not in~ b"
      "event.category" = .ok (some (.binary "and" (.binary "or" (.binary "==" (.call "length"
          [.call "between" [.symbol "a", .const (.int 1), .const (.int 2)], .symbol "b"])
          (.const (.int 3))) (.binary "not in~" (.symbol "a") (.symbol "b")))
        (.binary "==" (.symbol "event.category") (.string "file")))) :=
    lowerText_eq_ok_iff.mpr ⟨_, hread, rfl, rfl⟩
  obtain ⟨q, f, hparse, hfilter, herrors, -⟩ :=
    errors_eq_complaints hlower (some (.denying "a" "no")) false
  cases hread.symm.trans hparse
  exact ⟨hlower, f, hfilter, herrors⟩

end EventQuery
