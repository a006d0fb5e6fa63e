import EventQuery.Filter
import EventQuery.Proofs.DialectSteps
import EventQuery.Proofs.Trees
import EventQuery.Proofs.WellFormed

/-!
# Where the symbols of a clause come from

Every symbol of a clause is the column of a field that the query mentions,
or of the field that holds the category. A pass may drop a symbol or write
it twice, but none makes one up.
-/

namespace EventQuery

/-! ## Symbols through a pass -/

namespace Expr

theorem mem_listSymbols {s : String} {es : List Expr} :
    s ∈ listSymbols es ↔ ∃ e ∈ es, s ∈ e.symbols := by
  rw [listSymbols_eq_flatMap, List.mem_flatMap]

section

variable {step : Expr → Except SoftError Expr} {P : String → Prop}

theorem finish_symbols {node : Mapped Expr}
    (hstep : ∀ t, step node.result = .ok t → ∀ s ∈ t.symbols, P s) :
    ∀ s ∈ (Mapped.finish step node).result.symbols, P s :=
  finish_result_induct (P := fun e => ∀ s ∈ e.symbols, P s) (by simp [symbols]) hstep

/-- If a step changes a symbol into symbols with a property, and no other
step adds symbols, all symbols of the result have that property. -/
theorem bottomUp_symbols {e : Expr}
    (hsymbol : ∀ name ∈ e.symbols, ∀ t, step (.symbol name) = .ok t → ∀ s ∈ t.symbols, P s)
    (hnode : ∀ node t, step node = .ok t → (∀ name, node ≠ .symbol name) →
      t.symbols ⊆ node.symbols) :
    ∀ s ∈ (bottomUp step e).result.symbols, P s := by
  have hother : ∀ node : Mapped Expr, (∀ name, node.result ≠ .symbol name) →
      (∀ s ∈ node.result.symbols, P s) →
      ∀ s ∈ (Mapped.finish step node).result.symbols, P s := fun node hne hnodes =>
    finish_symbols fun t ht s hs => hnodes s (hnode _ t ht hne hs)
  have hlist : ∀ es : List Expr,
      (∀ e ∈ es, (∀ name ∈ e.symbols, ∀ t, step (.symbol name) = .ok t → ∀ s ∈ t.symbols, P s) →
        ∀ s ∈ (bottomUp step e).result.symbols, P s) →
      (∀ name ∈ listSymbols es, ∀ t, step (.symbol name) = .ok t → ∀ s ∈ t.symbols, P s) →
      ∀ s ∈ listSymbols (bottomUpList step es).result, P s := by
    intro es ih hes s hs
    rw [bottomUpList_result, mem_listSymbols] at hs
    obtain ⟨_, ht, hs⟩ := hs
    obtain ⟨e, he, rfl⟩ := List.mem_map.mp ht
    exact ih e he (fun name hname => hes name (mem_listSymbols.mpr ⟨e, he, hname⟩)) s hs
  induction e with
  | const c => exact hother _ (by simp) (by simp [symbols])
  | symbol name => exact finish_symbols (hsymbol name (by simp [symbols]))
  | null => exact hother _ (by simp) (by simp [symbols])
  | group e ih => exact hother _ (by simp) (ih hsymbol)
  | binary op left right ihl ihr =>
      refine hother _ (by simp) fun s hs => ?_
      rcases List.mem_append.mp hs with hs | hs
      · exact ihl (fun name hname => hsymbol name (List.mem_append_left _ hname)) s hs
      · exact ihr (fun name hname => hsymbol name (List.mem_append_right _ hname)) s hs
  | unary op args ih => exact hother _ (by simp) (hlist args ih hsymbol)
  | call name args ih => exact hother _ (by simp) (hlist args ih hsymbol)
  | array items ih => exact hother _ (by simp) (hlist items ih hsymbol)
  | fault message => exact hother _ (by simp) (by simp [symbols])

end

theorem nameFields_symbols (namer : Namer) (e : Expr) :
    ∀ s ∈ (e.nameFields namer).result.symbols, ∃ name ∈ e.symbols, namer name = .ok s := by
  refine bottomUp_symbols (fun name hname t ht s hs => ?_) (fun node t ht hne => ?_)
  · rw [nameFieldStep] at ht
    split at ht <;> cases ht
    rename_i column hcolumn
    obtain rfl := List.mem_singleton.mp hs
    exact ⟨name, hname, hcolumn⟩
  · obtain rfl : node = t := by
      cases node with
      | symbol name => exact absurd rfl (hne name)
      | _ => exact Except.ok.inj ht
    exact List.Subset.refl _

theorem orChain?_symbols : ∀ {es : List Expr} {e : Expr}, orChain? es = some e →
    e.symbols = listSymbols es
  | [], _, h => by cases h
  | [_], _, h => by
      cases h
      simp [listSymbols]
  | e₁ :: e₂ :: es, _, h => by
      rw [orChain?_cons_cons] at h
      obtain ⟨tail, htail, rfl⟩ := Option.map_eq_some_iff.mp h
      rw [symbols, listSymbols, orChain?_symbols htail]

end Expr

/-! ## Symbols through the dialect -/

namespace Dialect

open EventQuery.Expr

theorem likeOperand_symbols (e : Expr) : (likeOperand e).symbols = e.symbols := by
  unfold likeOperand
  split <;> simp only [Expr.string, symbols]

theorem negateIf_symbols (negated : Bool) (e : Expr) :
    (negateIf negated e).symbols = e.symbols := by
  cases negated <;> simp [negateIf, symbols, listSymbols]

theorem lowerList_symbols (es : List Expr) : listSymbols (es.map lower) = listSymbols es := by
  simp [listSymbols_eq_flatMap, List.flatMap_map, lower, symbols]

theorem operands_symbols (e : Expr) : listSymbols (operands e) = e.symbols := by
  cases e with
  | array items => rfl
  | _ => exact List.append_nil _

theorem patternTest_symbols (kind : LookupOp) (field pattern : Expr) :
    (patternTest kind field pattern).symbols = field.symbols ++ pattern.symbols := by
  cases kind <;> simp [patternTest, symbols, listSymbols, likeOperand_symbols]

theorem lowerTwo_symbols (args : List Expr) : listSymbols (lowerTwo args) = listSymbols args := by
  match args with
  | [] => rfl
  | [_] | _ :: _ :: _ => simp [lowerTwo, lower, listSymbols, symbols]

theorem binary_symbols {op : String} {left right t : Expr} (h : binary op left right = .ok t) :
    t.symbols ⊆ left.symbols ++ right.symbols := by
  rcases binary_cases h with ⟨sqlOp, -, rfl⟩ | ⟨negated, rfl⟩ | ⟨negated, items, rfl, rfl⟩ |
    ⟨negated, kind, chain, rfl, hchain⟩
  · exact List.Subset.refl _
  · simp [symbols, operands_symbols]
  · simp [symbols, lower, listSymbols, lowerList_symbols]
  · intro s hs
    rw [negateIf_symbols, orChain?_symbols hchain, mem_listSymbols] at hs
    obtain ⟨_, he, hs⟩ := hs
    obtain ⟨p, hp, rfl⟩ := List.mem_map.mp he
    rw [patternTest_symbols] at hs
    rw [← operands_symbols right]
    rcases List.mem_append.mp hs with hs | hs
    · exact List.mem_append_left _ hs
    · exact List.mem_append_right _ (mem_listSymbols.mpr ⟨p, hp, hs⟩)

theorem target_symbols {f : Builtin} {args : List Expr} {t : Expr} (h : target? f args = some t) :
    t.symbols ⊆ listSymbols args := by
  rcases target_cases h with ⟨name, -, rfl⟩ | ⟨op, left, right, -, rfl, rfl⟩ |
    ⟨address, ranges, rfl, rfl, hchain⟩
  · exact List.Subset.refl _
  · simp [symbols, listSymbols]
  · intro s hs
    rw [orChain?_symbols hchain, mem_listSymbols] at hs
    obtain ⟨_, he, hs⟩ := hs
    obtain ⟨range, hrange, rfl⟩ := List.mem_map.mp he
    simp only [symbols, listSymbols, List.append_nil, List.mem_append] at hs ⊢
    exact hs.imp_right fun hs => mem_listSymbols.mpr ⟨range, hrange, hs⟩

theorem call_symbols {name : String} {args : List Expr} {t : Expr} (h : call name args = .ok t) :
    t.symbols ⊆ listSymbols args := by
  obtain ⟨f, insensitive, -, -, htarget⟩ := call_cases h
  have hsub := target_symbols htarget
  cases insensitive with
  | false => exact hsub
  | true => rwa [if_pos rfl, lowerTwo_symbols] at hsub

theorem step_symbols {node t : Expr} (h : step node = .ok t) : t.symbols ⊆ node.symbols := by
  cases node with
  | binary op left right => exact binary_symbols h
  | unary op args =>
      obtain ⟨-, rfl⟩ := unary_cases h
      exact List.Subset.refl _
  | call name args => exact call_symbols h
  | _ =>
      cases h
      exact List.Subset.refl _

end Dialect

namespace Expr

theorem toDialect_symbols (e : Expr) : e.toDialect.result.symbols ⊆ e.symbols := by
  refine bottomUp_symbols (fun name hname t ht s hs => ?_) fun node t ht _ =>
    Dialect.step_symbols ht
  cases ht
  exact List.mem_singleton.mp hs ▸ hname

/-- The symbols of a tree in columns and SQL operators are the columns of
the fields in the tree it was made of. -/
theorem toSql_symbols (e : Expr) (namer : Option Namer) :
    ∀ s ∈ (e.toSql namer).result.symbols,
      ∃ name ∈ e.symbols, namer.getD .identity name = .ok s := by
  intro s hs
  cases namer with
  | none => exact ⟨s, toDialect_symbols e hs, rfl⟩
  | some n => exact nameFields_symbols n e s (toDialect_symbols _ hs)

end Expr

/-! ## Fields of a query -/

theorem Value.listFields_eq_flatMap (vs : List Value) : listFields vs = vs.flatMap fields := by
  induction vs with
  | nil => rfl
  | cons v vs ih => rw [listFields, ih, List.flatMap_cons]

theorem Value.expr_symbols (v : Value) : v.expr.symbols = v.fields.map Field.name := by
  induction v with
  | null => rfl
  | literal l => cases l <;> rfl
  | field f => rfl
  | call name args ih =>
      rw [expr, fields, Expr.symbols, exprs_eq_map, listFields_eq_flatMap,
        Expr.listSymbols_eq_flatMap, List.flatMap_map, List.map_flatMap]
      exact List.flatMap_congr ih
  | group v ih => exact ih
  | arith op left right ihl ihr => rw [expr, fields, Expr.symbols, ihl, ihr, List.map_append]

theorem Value.exprs_symbols (vs : List Value) :
    Expr.listSymbols (exprs vs) = (listFields vs).map Field.name := by
  rw [exprs_eq_map, listFields_eq_flatMap, Expr.listSymbols_eq_flatMap, List.flatMap_map,
    List.map_flatMap]
  exact List.flatMap_congr fun v _ => expr_symbols v

theorem LookupTarget.expr_symbols (target : LookupTarget) :
    target.expr.symbols = target.fields.map Field.name := by
  cases target with
  | list items =>
      rw [expr, Expr.symbols, Expr.listSymbols_eq_flatMap, List.flatMap_map]
      exact List.flatMap_eq_nil_iff.mpr fun l _ => by cases l <;> rfl
  | value v => exact v.expr_symbols

theorem Condition.expr_symbols (c : Condition) : c.expr.symbols = c.fields.map Field.name := by
  induction c with
  | boolean raw => rfl
  | not c ih => simp [expr, fields, Expr.symbols, Expr.listSymbols, ih]
  | group c ih => exact ih
  | comparison op left right =>
      simp only [expr, fields, Expr.symbols, Value.expr_symbols, List.map_append]
  | lookup field negated op target =>
      simp only [expr, fields, Expr.symbols, Field.expr, LookupTarget.expr_symbols, List.map_cons,
        List.singleton_append]
  | call name args => simp only [expr, fields, Expr.symbols, Value.exprs_symbols]
  | notCall name args =>
      simp only [expr, fields, Expr.symbols, Expr.listSymbols, Value.exprs_symbols,
        List.append_nil]
  | logical op left right ihl ihr =>
      simp only [expr, fields, Expr.symbols, ihl, ihr, List.map_append]

/-- The symbols of the expression of a query are the names of its fields
and, if there is a category, of the field that holds it. -/
theorem SimpleQuery.expr?_symbols {q : SimpleQuery} {categoryField : String} {e : Expr}
    (h : q.expr? categoryField = some e) :
    ∀ s ∈ e.symbols, s ∈ q.fields.map Field.name ∨ s = categoryField := by
  intro s hs
  rcases expr?_cases h with ⟨c, text, hc, -, rfl⟩ | ⟨c, hc, -, rfl⟩ | ⟨text, -, -, rfl⟩
  · rw [Expr.symbols, List.mem_append, Condition.expr_symbols] at hs
    exact hs.imp (by simp [fields, hc]) (by simp [Expr.symbols, Expr.string])
  · exact .inl (by simpa [fields, hc, Condition.expr_symbols] using hs)
  · exact .inr (by simpa [Expr.symbols, Expr.string] using hs)

/-! ## Well-formed queries -/

theorem Value.WellFormed.fields {v : Value} (h : v.WellFormed) : ∀ f ∈ v.fields, f.WellFormed := by
  induction v with
  | null => simp [Value.fields]
  | literal l => simp [Value.fields]
  | field f => simpa [Value.fields, Value.WellFormed] using h
  | call name args ih =>
      intro f hf
      rw [Value.fields, listFields_eq_flatMap] at hf
      obtain ⟨v, hv, hf⟩ := List.mem_flatMap.mp hf
      exact ih v hv (allWellFormed_iff.mp h.2.2 v hv) f hf
  | group v ih => exact ih h
  | arith op left right ihl ihr =>
      intro f hf
      rcases List.mem_append.mp hf with hf | hf
      · exact ihl h.1 f hf
      · exact ihr h.2.1 f hf

theorem LookupTarget.WellFormed.fields {target : LookupTarget} (h : target.WellFormed) :
    ∀ f ∈ target.fields, f.WellFormed := by
  cases target with
  | list items => simp [LookupTarget.fields]
  | value v => exact h.1.fields

theorem Condition.WellFormed.fields {c : Condition} (h : c.WellFormed) :
    ∀ f ∈ c.fields, f.WellFormed := by
  induction c with
  | boolean raw => simp [Condition.fields]
  | not c ih => exact ih h.1
  | group c ih => exact ih h
  | comparison op left right =>
      intro f hf
      rcases List.mem_append.mp hf with hf | hf
      · exact h.1.fields f hf
      · exact h.2.fields f hf
  | lookup field negated op target =>
      exact List.forall_mem_cons.mpr ⟨h.1, h.2.fields⟩
  | call name args => exact Value.WellFormed.fields (v := .call name args) h
  | notCall name args => exact Value.WellFormed.fields (v := .call name args) h
  | logical op left right ihl ihr =>
      intro f hf
      rcases List.mem_append.mp hf with hf | hf
      · exact ihl h.1 f hf
      · exact ihr h.2.1 f hf

theorem SimpleQuery.WellFormed.fields {q : SimpleQuery} (h : q.WellFormed) :
    ∀ f ∈ q.fields, f.WellFormed := by
  unfold SimpleQuery.fields
  cases hc : q.condition with
  | none => simp
  | some c => exact (h.2 c hc).fields

end EventQuery
