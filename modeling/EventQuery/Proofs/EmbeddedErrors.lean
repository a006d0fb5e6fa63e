import EventQuery.Proofs.SoftErrors
import EventQuery.Proofs.StrictMode

/-!
# Which errors a clause shows

A filter lists its errors, and its clause fails with their messages when
it is run. The two do not quite agree: a node that offends is replaced as
a whole, so an error below it is listed but can no longer be seen in the
clause. What can be seen is exactly what no offending node covers
(`Value.exposed`, `Condition.exposed`), and in particular everything that
is listed, if no node that offends has an error below it.

As in `SoftErrors`, both passes are taken together, and the inductions
use of the dialect only when a step fails and that a successful step keeps
the faults below it.
-/

namespace EventQuery

/-! ## Errors that no offending node covers -/

/-- The error of a node: a field without a column, or a node that
offends. -/
def Node.error? (namer : Namer) : Node → Option SoftError
  | .value (.field f) => namer.error? f.name
  | n => n.complaint?

/-- The nodes below a node. -/
def Node.below : Node → List Node
  | .value v => v.nodes.dropLast
  | .condition c => c.nodes.dropLast

/-- What is to be seen of a node, given what is to be seen of its parts. -/
def Node.expose (n : Node) (parts : List SoftError) : List SoftError :=
  match n.complaint? with
  | some x => [x]
  | none => parts

mutual

/-- The errors in a value that no offending node covers. -/
def Value.exposed (namer : Namer) : Value → List SoftError
  | .null => []
  | .literal _ => []
  | .field f => (namer.error? f.name).toList
  | .call name args => (Node.value (.call name args)).expose (Value.listExposed namer args)
  | .group v => v.exposed namer
  | .arith _ left right => left.exposed namer ++ right.exposed namer

def Value.listExposed (namer : Namer) : List Value → List SoftError
  | [] => []
  | v :: vs => v.exposed namer ++ Value.listExposed namer vs

end

def LookupTarget.exposed (namer : Namer) : LookupTarget → List SoftError
  | .list _ => []
  | .value v => v.exposed namer

/-- The errors in a condition that no offending node covers. -/
def Condition.exposed (namer : Namer) : Condition → List SoftError
  | .boolean _ => []
  | .not c => c.exposed namer
  | .group c => c.exposed namer
  | .comparison _ left right => left.exposed namer ++ right.exposed namer
  | .lookup field negated op target =>
    (Node.condition (.lookup field negated op target)).expose
      ((namer.error? field.name).toList ++ target.exposed namer)
  | .call name args =>
    (Node.condition (.call name args)).expose (Value.listExposed namer args)
  | .notCall name args =>
    (Node.condition (.notCall name args)).expose (Value.listExposed namer args)
  | .logical _ left right => left.exposed namer ++ right.exposed namer

/-- The field that holds the category is covered by nothing. -/
def SimpleQuery.exposed (namer : Namer) (categoryField : String) (q : SimpleQuery) :
    List SoftError :=
  (q.condition.map (Condition.exposed namer)).getD [] ++
    if q.category.text?.isSome then (namer.error? categoryField).toList else []

theorem Value.listExposed_eq_flatMap (namer : Namer) (vs : List Value) :
    listExposed namer vs = vs.flatMap (exposed namer) := by
  induction vs with
  | nil => rfl
  | cons v vs ih => rw [listExposed, ih, List.flatMap_cons]

/-! ## Trees that show errors -/

namespace Expr

/-- The faults of a tree carry the messages of some errors, and no
others. -/
def Shows (e : Expr) (errors : List SoftError) : Prop :=
  ∀ m, m ∈ e.faultMessages ↔ m ∈ errors.map SoftError.message

variable {errors errors' : List SoftError}

theorem Shows.binary {left right : Expr} (hl : left.Shows errors) (hr : right.Shows errors')
    (op : String) : (Expr.binary op left right).Shows (errors ++ errors') := by
  intro m
  rw [faultMessages, List.map_append, List.mem_append, List.mem_append, hl m, hr m]

theorem shows_list {α : Type} {tree : α → Expr} {errors : α → List SoftError} {xs : List α}
    (h : ∀ x ∈ xs, (tree x).Shows (errors x)) (m : String) :
    m ∈ listFaultMessages (xs.map tree) ↔ m ∈ (xs.flatMap errors).map SoftError.message := by
  rw [mem_listFaultMessages, List.map_flatMap, List.mem_flatMap]
  simp only [List.mem_map, exists_exists_and_eq_and]
  exact exists_congr fun x => and_congr_right fun hx => by rw [h x hx m, List.mem_map]

/-- A finished node shows its own error, or else what its parts show. -/
theorem Shows.finish {node : Mapped Expr} (h : node.result.Shows errors) :
    (Mapped.finish Dialect.step node).result.Shows
      (match failure? (Dialect.step node.result) with
        | some x => [x]
        | none => errors) := by
  intro m
  cases ht : Dialect.step node.result with
  | ok t =>
      rw [finish_of_ok ht]
      exact (Dialect.step_keepsFaults _ t ht m).trans (h m)
  | error x =>
      rw [finish_of_error ht]
      simp [faultMessages, failure?]

theorem Shows.finish_of_ok {node : Mapped Expr} (h : node.result.Shows errors)
    (hok : failure? (Dialect.step node.result) = none) :
    (Mapped.finish Dialect.step node).result.Shows errors := by
  have hfinish := h.finish
  rwa [hok] at hfinish

end Expr

section

variable (namer : Namer)

open EventQuery.Expr

theorem Field.translated_shows (f : Field) :
    (f.expr.translated namer).result.Shows (namer.error? f.name).toList := by
  intro m
  rw [expr, translated_symbol]
  cases h : namer f.name with
  | ok column =>
      have hnone : namer.error? f.name = none := by rw [Namer.error?, h]
      rw [hnone]
      exact Iff.rfl
  | error e =>
      have hsome : namer.error? f.name = some (.fieldName e) := by rw [Namer.error?, h]
      rw [hsome]
      exact Iff.rfl

theorem Value.listExposed_shows {args : List Value}
    (ih : ∀ v ∈ args, (v.expr.translated namer).result.Shows (v.exposed namer)) (name : String) :
    (Expr.call name ((exprs args).map fun e => (e.translated namer).result)).Shows
      (listExposed namer args) := by
  intro m
  rw [faultMessages, exprs_eq_map, List.map_map, listExposed_eq_flatMap]
  exact shows_list ih m

/-- A call shows that it offends, or else what its arguments show. -/
theorem Value.call_shows {n : Node} {name : CallName} {args : List Value}
    (hn : n.complaint? = name.complaint? args.length)
    (ih : ∀ v ∈ args, (v.expr.translated namer).result.Shows (v.exposed namer)) :
    ((Expr.call name.text (exprs args)).translated namer).result.Shows
      (n.expose (listExposed namer args)) := by
  rw [translated_call, Node.expose, hn, ← call_failure? namer]
  exact Shows.finish (listExposed_shows namer ih name.text)

/-- An operator that does not fail shows what its operands show. -/
theorem Expr.binary_shows {op : String} {left right : Expr} {errors errors' : List SoftError}
    (hok : failure? (Dialect.binary op (left.translated namer).result
      (right.translated namer).result) = none)
    (hl : (left.translated namer).result.Shows errors)
    (hr : (right.translated namer).result.Shows errors') :
    ((Expr.binary op left right).translated namer).result.Shows (errors ++ errors') := by
  rw [translated_binary]
  exact Shows.finish_of_ok (hl.binary hr op) hok

theorem Value.translated_shows (v : Value) :
    (v.expr.translated namer).result.Shows (v.exposed namer) := by
  induction v with
  | null => exact fun m => Iff.rfl
  | literal l =>
      rw [expr, l.translated_expr]
      cases l <;> exact fun m => Iff.rfl
  | field f => exact f.translated_shows namer
  | call name args ih => exact call_shows namer rfl ih
  | group v ih => exact Shows.finish ih
  | arith op left right ihl ihr =>
      exact binary_shows namer (Dialect.arith_failure? op _ _) ihl ihr

theorem LookupTarget.translated_shows (target : LookupTarget) :
    (target.expr.translated namer).result.Shows (target.exposed namer) := by
  cases target with
  | list items =>
      intro m
      have hnone := (LookupTarget.list items).expr_faultMessages
      rw [translated_list]
      exact iff_of_eq (congrArg (m ∈ ·) hnone)
  | value v => exact v.translated_shows namer

/-- A negation shows what its operand shows. -/
theorem Expr.not_shows {e : Expr} {errors : List SoftError}
    (h : (e.translated namer).result.Shows errors) :
    ((Expr.unary "not" [e]).translated namer).result.Shows errors := by
  intro m
  rw [translated_unary]
  exact (iff_of_eq (congrArg (m ∈ ·) (List.append_nil _))).trans (h m)

theorem Condition.translated_shows {c : Condition} (h : c.WellFormed) :
    (c.expr.translated namer).result.Shows (c.exposed namer) := by
  induction c with
  | boolean raw => exact fun m => Iff.rfl
  | not c ih => exact not_shows namer (ih h.1)
  | group c ih => exact Shows.finish (ih h)
  | comparison op left right =>
      exact binary_shows namer (Dialect.compare_failure? op _ _) (left.translated_shows namer)
        (right.translated_shows namer)
  | lookup field negated op target =>
      have hfailure := LookupTarget.failure?_eq namer h.2 field negated op
        (field.expr.translated namer).result
      rw [expr, translated_binary, exposed, Node.expose, ← hfailure]
      exact Shows.finish ((field.translated_shows namer).binary (target.translated_shows namer) _)
  | call name args =>
      exact Value.call_shows namer rfl fun v _ => v.translated_shows namer
  | notCall name args =>
      exact not_shows namer (Value.call_shows namer rfl fun v _ => v.translated_shows namer)
  | logical op left right ihl ihr =>
      exact binary_shows namer (Dialect.logic_failure? op _ _) (ihl h.1) (ihr h.2.1)

theorem Category.translated_shows (categoryField text : String) :
    ((Expr.binary "==" (.symbol categoryField) (.string text)).translated namer).result.Shows
      (namer.error? categoryField).toList := by
  have hstring : ((Expr.string text).translated namer).result.Shows [] := fun m => Iff.rfl
  have hshows := binary_shows namer (Dialect.compare_failure? .eq _ _)
    (Field.translated_shows namer ⟨categoryField, false⟩) hstring
  rwa [List.append_nil] at hshows

/-- The clause of a query shows the errors that no offending node
covers. -/
theorem SimpleQuery.translated_shows {q : SimpleQuery} (h : q.WellFormed) {categoryField : String}
    {e : Expr} (he : q.expr? categoryField = some e) :
    (e.translated namer).result.Shows (q.exposed namer categoryField) := by
  unfold exposed
  rcases expr?_cases he with ⟨c, text, hc, htext, rfl⟩ | ⟨c, hc, htext, rfl⟩ |
    ⟨text, hc, htext, rfl⟩
  · rw [hc, htext]
    exact binary_shows namer (Dialect.logic_failure? .and _ _)
      (Condition.translated_shows namer (h.2 c hc))
      (Category.translated_shows namer categoryField text)
  · rw [hc, htext]
    simpa using Condition.translated_shows namer (h.2 c hc)
  · rw [hc, htext]
    exact Category.translated_shows namer categoryField text

end

/-! ## Nothing covered, everything shown -/

/-- A node that offends and has an error below it. -/
def Node.Covers (namer : Namer) (n : Node) : Prop :=
  n.Offends ∧ ∃ k ∈ n.below, (k.error? namer).isSome = true

instance (namer : Namer) : DecidablePred (Node.Covers namer) := fun _ =>
  inferInstanceAs (Decidable (_ ∧ _))

/-- The nodes of a list are looked at one after the other: each error
among them is one of `errors`. -/
def AllExposed (namer : Namer) (ns : List Node) (errors : List SoftError) : Prop :=
  ∀ n ∈ ns, ∀ x, n.error? namer = some x → x ∈ errors

namespace AllExposed

variable {namer : Namer} {ns ks : List Node} {errors errors' : List SoftError}

theorem append (h : AllExposed namer ns errors) (h' : AllExposed namer ks errors') :
    AllExposed namer (ns ++ ks) (errors ++ errors') := by
  intro n hn x hx
  rcases List.mem_append.mp hn with hn | hn
  · exact List.mem_append_left _ (h n hn x hx)
  · exact List.mem_append_right _ (h' n hn x hx)

theorem flatMap {α : Type} {nodes : α → List Node} {errors : α → List SoftError} {xs : List α}
    (h : ∀ a ∈ xs, AllExposed namer (nodes a) (errors a)) :
    AllExposed namer (xs.flatMap nodes) (xs.flatMap errors) := by
  intro n hn x hx
  obtain ⟨a, ha, hn⟩ := List.mem_flatMap.mp hn
  exact List.mem_flatMap.mpr ⟨a, ha, h a ha n hn x hx⟩

theorem quiet {n : Node} (hn : n.error? namer = none) : AllExposed namer [n] errors := by
  intro k hk x hx
  obtain rfl := List.mem_singleton.mp hk
  rw [hn] at hx
  cases hx

/-- A node without an error of its own adds nothing. -/
theorem concat_quiet {n : Node} (hn : n.error? namer = none) (h : AllExposed namer ns errors) :
    AllExposed namer (ns ++ [n]) errors := by
  rw [← List.append_nil errors]
  exact h.append (quiet hn)

/-- A node that covers nothing leaves the errors of its parts to be seen,
or has none below it. -/
theorem concat {n : Node} (hbelow : n.below = ns) (hn : ¬ n.Covers namer)
    (hown : n.error? namer = n.complaint?) (h : AllExposed namer ns errors) :
    AllExposed namer (ns ++ [n]) (n.expose errors) := by
  unfold Node.expose
  cases hc : n.complaint? with
  | none => exact concat_quiet (hown.trans hc) h
  | some y =>
      have hoffends : n.Offends := (Node.complaint?_isSome_iff n).mp (by rw [hc]; rfl)
      intro k hk x hx
      rcases List.mem_append.mp hk with hk | hk
      · have hcovers : n.Covers namer := ⟨hoffends, k, hbelow ▸ hk, by rw [hx]; rfl⟩
        exact absurd hcovers hn
      · obtain rfl := List.mem_singleton.mp hk
        rw [hown, hc] at hx
        obtain rfl := Option.some.inj hx
        exact List.mem_singleton.mpr rfl

end AllExposed

section

variable {namer : Namer}

theorem Value.allExposed {v : Value} (h : ∀ n ∈ v.nodes, ¬ n.Covers namer) :
    AllExposed namer v.nodes (v.exposed namer) := by
  induction v with
  | null => exact .quiet rfl
  | literal l => exact .quiet rfl
  | field f =>
      intro n hn x hx
      obtain rfl := List.mem_singleton.mp hn
      exact Option.mem_toList.mpr hx
  | call name args ih =>
      have hself : ¬ (Node.value (.call name args)).Covers namer := h _ (by simp [nodes])
      rw [nodes, exposed]
      refine .concat List.dropLast_concat hself rfl ?_
      rw [listNodes_eq_flatMap, listExposed_eq_flatMap]
      refine .flatMap fun v hv => ih v hv fun n hn => h n ?_
      rw [nodes, listNodes_eq_flatMap]
      exact List.mem_append_left _ (List.mem_flatMap.mpr ⟨v, hv, hn⟩)
  | group v ih =>
      exact .concat_quiet rfl (ih fun n hn => h n (List.mem_append_left _ hn))
  | arith op left right ihl ihr =>
      rw [nodes] at h ⊢
      exact .concat_quiet rfl (.append (ihl fun n hn => h n (by simp [hn]))
        (ihr fun n hn => h n (by simp [hn])))

theorem Value.listNodes_allExposed {vs : List Value}
    (h : ∀ n ∈ listNodes vs, ¬ n.Covers namer) :
    AllExposed namer (listNodes vs) (listExposed namer vs) := by
  rw [listNodes_eq_flatMap] at h ⊢
  rw [listExposed_eq_flatMap]
  exact .flatMap fun v hv => allExposed fun n hn => h n (List.mem_flatMap.mpr ⟨v, hv, hn⟩)

theorem LookupTarget.allExposed {target : LookupTarget}
    (h : ∀ n ∈ target.nodes, ¬ n.Covers namer) :
    AllExposed namer target.nodes (target.exposed namer) := by
  cases target with
  | list items =>
      intro n hn x hx
      obtain ⟨l, -, rfl⟩ := List.mem_map.mp hn
      cases hx
  | value v => exact v.allExposed h

theorem Condition.allExposed {c : Condition} (h : ∀ n ∈ c.nodes, ¬ n.Covers namer) :
    AllExposed namer c.nodes (c.exposed namer) := by
  induction c with
  | boolean raw => exact .quiet rfl
  | not c ih => exact .concat_quiet rfl (ih fun n hn => h n (List.mem_append_left _ hn))
  | group c ih => exact .concat_quiet rfl (ih fun n hn => h n (List.mem_append_left _ hn))
  | comparison op left right =>
      rw [nodes] at h ⊢
      exact .concat_quiet rfl (.append (Value.allExposed fun n hn => h n (by simp [hn]))
        (Value.allExposed fun n hn => h n (by simp [hn])))
  | lookup field negated op target =>
      have hself : ¬ (Node.condition (.lookup field negated op target)).Covers namer :=
        h _ (by simp [nodes])
      rw [nodes] at h ⊢
      have hfield : AllExposed namer [.value (.field field)] (namer.error? field.name).toList :=
        Value.allExposed (v := .field field) fun n hn => h n (List.mem_append_left _
          (List.mem_append_left target.nodes hn))
      have htarget : AllExposed namer target.nodes (target.exposed namer) :=
        LookupTarget.allExposed fun n hn => h n (by simp [hn])
      exact .concat List.dropLast_concat hself rfl (hfield.append htarget)
  | call name args =>
      have hself : ¬ (Node.condition (.call name args)).Covers namer := h _ (by simp [nodes])
      rw [nodes] at h ⊢
      exact .concat List.dropLast_concat hself rfl
        (Value.listNodes_allExposed fun n hn => h n (List.mem_append_left _ hn))
  | notCall name args =>
      have hself : ¬ (Node.condition (.notCall name args)).Covers namer := h _ (by simp [nodes])
      rw [nodes] at h ⊢
      exact .concat List.dropLast_concat hself rfl
        (Value.listNodes_allExposed fun n hn => h n (List.mem_append_left _ hn))
  | logical op left right ihl ihr =>
      rw [nodes] at h ⊢
      exact .concat_quiet rfl (.append (ihl fun n hn => h n (by simp [hn]))
        (ihr fun n hn => h n (by simp [hn])))

end

/-! ## Fields are nodes -/

theorem Value.field_mem_nodes {v : Value} {f : Field} (hf : f ∈ v.fields) :
    Node.value (.field f) ∈ v.nodes := by
  induction v with
  | null => cases hf
  | literal l => cases hf
  | field g =>
      obtain rfl := List.mem_singleton.mp hf
      exact List.mem_singleton.mpr rfl
  | call name args ih =>
      rw [fields, listFields_eq_flatMap] at hf
      obtain ⟨v, hv, hf⟩ := List.mem_flatMap.mp hf
      rw [nodes, listNodes_eq_flatMap]
      exact List.mem_append_left _ (List.mem_flatMap.mpr ⟨v, hv, ih v hv hf⟩)
  | group v ih => exact List.mem_append_left _ (ih hf)
  | arith op left right ihl ihr =>
      rw [nodes]
      rcases List.mem_append.mp hf with hf | hf
      · simp [ihl hf]
      · simp [ihr hf]

theorem Condition.field_mem_nodes {c : Condition} {f : Field} (hf : f ∈ c.fields) :
    Node.value (.field f) ∈ c.nodes := by
  have hargs : ∀ {args : List Value}, f ∈ Value.listFields args →
      Node.value (.field f) ∈ Value.listNodes args := by
    intro args hf
    rw [Value.listFields_eq_flatMap] at hf
    obtain ⟨v, hv, hf⟩ := List.mem_flatMap.mp hf
    rw [Value.listNodes_eq_flatMap]
    exact List.mem_flatMap.mpr ⟨v, hv, Value.field_mem_nodes hf⟩
  induction c with
  | boolean raw => cases hf
  | not c ih => exact List.mem_append_left _ (ih hf)
  | group c ih => exact List.mem_append_left _ (ih hf)
  | comparison op left right =>
      rw [nodes]
      rcases List.mem_append.mp hf with hf | hf
      · simp [Value.field_mem_nodes hf]
      · simp [Value.field_mem_nodes hf]
  | lookup field negated op target =>
      rw [nodes]
      rcases List.mem_cons.mp hf with rfl | hf
      · simp
      · cases target with
        | list items => cases hf
        | value v =>
            have hnode := Value.field_mem_nodes (v := v) hf
            simp [LookupTarget.nodes, hnode]
  | call name args => exact List.mem_append_left _ (hargs hf)
  | notCall name args => exact List.mem_append_left _ (hargs hf)
  | logical op left right ihl ihr =>
      rw [nodes]
      rcases List.mem_append.mp hf with hf | hf
      · simp [ihl hf]
      · simp [ihr hf]

theorem Node.error?_of_complaint? {namer : Namer} {n : Node} {x : SoftError}
    (h : n.complaint? = some x) : n.error? namer = some x := by
  unfold Node.error?
  split
  · cases h
  · exact h

/-- If no node covers an error, every error of a query is to be seen. -/
theorem SimpleQuery.errors_subset_exposed {q : SimpleQuery} {namer : Namer} {categoryField : String}
    (h : ∀ n ∈ q.nodes, ¬ n.Covers namer) :
    ((q.expr? categoryField).elim [] Expr.symbols).filterMap namer.error? ++
      q.nodes.filterMap Node.complaint? ⊆ q.exposed namer categoryField := by
  have hcondition : AllExposed namer q.nodes
      ((q.condition.map (Condition.exposed namer)).getD []) := by
    unfold nodes at h ⊢
    cases hc : q.condition with
    | none => simp [AllExposed]
    | some c =>
        rw [hc] at h
        exact Condition.allExposed h
  have hfield : ∀ f ∈ q.fields, Node.value (.field f) ∈ q.nodes := by
    unfold fields nodes
    cases q.condition with
    | none => simp
    | some c => exact fun f hf => Condition.field_mem_nodes hf
  intro x hx
  rw [symbols_eq, List.filterMap_append, List.append_assoc] at hx
  unfold exposed
  rcases List.mem_append.mp hx with hx | hx
  · obtain ⟨name, hname, hx⟩ := List.mem_filterMap.mp hx
    obtain ⟨f, hf, rfl⟩ := List.mem_map.mp hname
    exact List.mem_append_left _ (hcondition _ (hfield f hf) x hx)
  · rcases List.mem_append.mp hx with hx | hx
    · refine List.mem_append_right _ ?_
      by_cases htext : q.category.text?.isSome = true
      · rw [if_pos htext] at hx ⊢
        simpa using hx
      · rw [if_neg htext] at hx
        cases hx
    · obtain ⟨n, hn, hx⟩ := List.mem_filterMap.mp hx
      exact List.mem_append_left _ (hcondition n hn x (Node.error?_of_complaint? hx))

/-! ## The headline theorem -/

theorem SimpleQuery.exposed_of_expr?_eq_none {q : SimpleQuery} {categoryField : String}
    (h : q.expr? categoryField = none) (namer : Namer) : q.exposed namer categoryField = [] := by
  obtain ⟨hc, htext⟩ := expr?_eq_none_iff.mp h
  rw [exposed, hc, htext]
  rfl

theorem SimpleQuery.clause_shows {q : SimpleQuery} (h : q.WellFormed) (o : Options) (m : String) :
    m ∈ clauseFaults ((q.expr? o.categoryField).map fun e => e.clause o) ↔
      m ∈ (q.exposed (o.namer.getD .identity) o.categoryField).map SoftError.message := by
  cases he : q.expr? o.categoryField with
  | none =>
      rw [exposed_of_expr?_eq_none he]
      exact Iff.rfl
  | some e =>
      have hshows := translated_shows (o.namer.getD .identity) h he m
      rw [← e.toSql_result, ← e.clause_faultMessages] at hshows
      exact hshows

/-- **Errors are embedded unless they are covered.** The faults of a
clause carry the messages of exactly those errors of the query that no
offending node covers. So every message of a filter is embedded in its
clause if no node of the query that offends has another error below
it. -/
theorem embedded_iff_exposed {o : Options} {text : String} {f : Filter}
    (hfilter : Filter.ofText o text = .ok f) :
    ∃ q c?, parse text = .ok ⟨.simple q, []⟩ ∧ clauseText o text = .ok c? ∧
      f = Filter.ofClause? c? ∧
      (∀ m, m ∈ clauseFaults c? ↔
        m ∈ (q.exposed (o.namer.getD .identity) o.categoryField).map SoftError.message) ∧
      ((∀ n ∈ q.nodes, ¬ n.Covers (o.namer.getD .identity)) →
        ∀ m ∈ f.messages, m ∈ clauseFaults c?) := by
  obtain ⟨c?, hclause, rfl⟩ := Filter.ofText_eq_ok_iff.mp hfilter
  obtain ⟨q, hparse, -, rfl⟩ := clauseText_eq_ok_iff.mp hclause
  have hq : q.WellFormed := (ofText_wellFormed (ofText_of_parse hparse)).body
  refine ⟨q, _, hparse, hclause, rfl, SimpleQuery.clause_shows hq o, fun hcovers m hm => ?_⟩
  obtain ⟨x, hx, rfl⟩ := List.mem_map.mp hm
  rw [SimpleQuery.filter_errors hq] at hx
  exact (SimpleQuery.clause_shows hq o _).mpr
    (List.mem_map.mpr ⟨x, SimpleQuery.errors_subset_exposed hcovers hx, rfl⟩)

theorem embedded_iff_exposed_repeated :
    ∃ f c?, Filter.ofText ⟨"event.category", some (.denying "a" "no"), false⟩
        "any where a like (\"x\", \"y\") and length(b, c) == 1" = .ok f ∧
      clauseText ⟨"event.category", some (.denying "a" "no"), false⟩
        "any where a like (\"x\", \"y\") and length(b, c) == 1" = .ok c? ∧
      f.errors = [.fieldName (.invalid "a" "no"), .arity "length" (.exactly 1) 2] ∧
      ∀ m ∈ f.messages, m ∈ clauseFaults c? := by
  have hread : parse "any where a like (\"x\", \"y\") and length(b, c) == 1" = .ok ⟨.simple ⟨.any,
      some (.logical .and (.lookup ⟨"a", false⟩ false .like
        (.list [.string "\"x\"", .string "\"y\""])) (.comparison .eq (.call ⟨.length, false⟩
          [.field ⟨"b", false⟩, .field ⟨"c", false⟩]) (.literal (.number "1"))))⟩, []⟩ :=
    parse_of_finish rfl rfl
  have hfilter := Filter.ofText_of_parse
    (o := ⟨"event.category", some (.denying "a" "no"), false⟩) hread rfl
  obtain ⟨q, c?, hparse, hclause, hf, -, hall⟩ := embedded_iff_exposed hfilter
  cases hread.symm.trans hparse
  exact ⟨_, c?, hfilter, hclause, rfl, hall (by decide)⟩

/-- The error of a call inside a call that offends is listed and not
embedded. -/
theorem covered_error_not_embedded :
    ∃ f c?, Filter.ofText {} "any where length(between(a, b, c), d) == 1" = .ok f ∧
      clauseText {} "any where length(between(a, b, c), d) == 1" = .ok c? ∧
      f = Filter.ofClause? c? ∧ "between function is not implemented" ∈ f.messages ∧
      "between function is not implemented" ∉ clauseFaults c? :=
  have hread : parse "any where length(between(a, b, c), d) == 1" = .ok ⟨.simple ⟨.any,
      some (.comparison .eq (.call ⟨.length, false⟩ [.call ⟨.between, false⟩ [.field ⟨"a", false⟩,
        .field ⟨"b", false⟩, .field ⟨"c", false⟩], .field ⟨"d", false⟩])
        (.literal (.number "1")))⟩, []⟩ := parse_of_finish rfl rfl
  have hclause : clauseText {} "any where length(between(a, b, c), d) == 1" = .ok (some
      ⟨.binary "=" (.fault "'length' function requires 1 argument(s), but got 2")
        (.const (.int 1)), [],
        [.notImplemented "between", .arity "length" (.exactly 1) 2]⟩) :=
    clauseText_eq_ok_iff.mpr ⟨_, hread, rfl, rfl⟩
  ⟨_, _, Filter.ofText_eq_ok_iff.mpr ⟨_, hclause, rfl⟩, hclause, rfl, List.mem_cons_self,
    by decide⟩

end EventQuery
