import EventQuery.Proofs.SoftErrors

/-!
# The patterns of a query

A lookup by pattern takes its patterns in the form of queries, with `*` and
`?`; SQL takes them with `%` and `_`, and text that looks like these is
escaped. The constant patterns of the tree that a query is translated to
are those of the query, one for one and in order, each in the form of SQL
(`SimpleQuery.translated_likePatterns`).

No value holds a pattern and a step over conditions drops none, so the
patterns of a tree are put together from the lookups below it.
-/

namespace EventQuery

/-! ## Patterns of a tree -/

namespace Expr

/-- The pattern that stands right of an operator. -/
def ownPattern (op : String) : Expr → List String
  | .const (.string s) => if op ∈ ["LIKE", "ILIKE"] then [s] else []
  | _ => []

mutual

/-- The constants right of `LIKE` and `ILIKE`, from left to right. -/
def likePatterns : Expr → List String
  | .binary op left right => left.likePatterns ++ (right.likePatterns ++ ownPattern op right)
  | .group e => e.likePatterns
  | .unary _ args => listLikePatterns args
  | .call _ args => listLikePatterns args
  | .array items => listLikePatterns items
  | .const _ => []
  | .symbol _ => []
  | .null => []
  | .fault _ => []

def listLikePatterns : List Expr → List String
  | [] => []
  | e :: es => e.likePatterns ++ listLikePatterns es

end

theorem listLikePatterns_eq_flatMap (es : List Expr) :
    listLikePatterns es = es.flatMap likePatterns := by
  induction es with
  | nil => rfl
  | cons e es ih => rw [listLikePatterns, ih, List.flatMap_cons]

theorem listLikePatterns_of_none {es : List Expr} (h : ∀ e ∈ es, e.likePatterns = []) :
    listLikePatterns es = [] := by
  rw [listLikePatterns_eq_flatMap, List.flatMap_eq_nil_iff]
  exact h

/-- An operator that takes no pattern. -/
theorem likePatterns_plain {op : String} (hop : op ∉ ["LIKE", "ILIKE"]) (left right : Expr) :
    (Expr.binary op left right).likePatterns = left.likePatterns ++ right.likePatterns := by
  have hown : ownPattern op right = [] := by
    unfold ownPattern
    split
    · exact if_neg hop
    · rfl
  rw [likePatterns, hown, List.append_nil]

theorem orChain?_likePatterns {es : List Expr} {chain : Expr} (h : orChain? es = some chain) :
    chain.likePatterns = es.flatMap likePatterns := by
  induction es generalizing chain with
  | nil => cases h
  | cons e es ih =>
      cases es with
      | nil =>
          cases h
          exact (List.append_nil _).symm
      | cons e' es =>
          rw [orChain?_cons_cons] at h
          obtain ⟨tail, htail, rfl⟩ := Option.map_eq_some_iff.mp h
          rw [likePatterns_plain (by decide), ih htail]
          rfl

/-- What a step leaves: the patterns of its result, or none if it fails. -/
theorem finish_likePatterns {node : Mapped Expr} {patterns : List String}
    (hok : ∀ t, Dialect.step node.result = .ok t → t.likePatterns = patterns)
    (herror : ∀ x, Dialect.step node.result = .error x → patterns = []) :
    (Mapped.finish Dialect.step node).result.likePatterns = patterns := by
  cases hstep : Dialect.step node.result with
  | ok t =>
      rw [finish_of_ok hstep]
      exact hok t hstep
  | error x =>
      rw [finish_of_error hstep]
      exact (herror x hstep).symm

end Expr

/-! ## Steps of the dialect -/

namespace Dialect

open EventQuery.Expr

/-- The text of a pattern in the form of SQL. -/
def likeText (s : String) : String := String.ofList (likePattern s.toList)

def isPatternOp : LookupOp → Bool
  | .like | .likeInsensitive | .colon => true
  | _ => false

def string? : Expr → Option String
  | .const (.string s) => some s
  | _ => none

theorem lowerTwo_likePatterns {args : List Expr} (h : ∀ e ∈ args, e.likePatterns = []) :
    ∀ e ∈ lowerTwo args, e.likePatterns = [] := by
  have hlower : ∀ e : Expr, e.likePatterns = [] → (lower e).likePatterns = [] :=
    fun e he => listLikePatterns_of_none (List.forall_mem_singleton.mpr he)
  match args with
  | [] => exact h
  | [a] => exact List.forall_mem_singleton.mpr (hlower a (h a List.mem_cons_self))
  | a :: b :: rest =>
      obtain ⟨ha, hb, hrest⟩ : a.likePatterns = [] ∧ b.likePatterns = [] ∧
          ∀ e ∈ rest, e.likePatterns = [] := by simpa using h
      simpa [lowerTwo] using ⟨hlower a ha, hlower b hb, hrest⟩

theorem target_likePatterns {f : Builtin} {args : List Expr} {t : Expr}
    (hargs : ∀ e ∈ args, e.likePatterns = []) (h : target? f args = some t) :
    t.likePatterns = [] := by
  rcases target_cases h with ⟨name, -, rfl⟩ | ⟨op, left, right, -, rfl, rfl⟩ |
    ⟨address, ranges, -, rfl, hchain⟩
  · exact listLikePatterns_of_none hargs
  · obtain ⟨hl, hr⟩ : left.likePatterns = [] ∧ right.likePatterns = [] := by simpa using hargs
    rw [likePatterns_plain (by cases op <;> decide), hl, hr]
    rfl
  · obtain ⟨haddress, hranges⟩ := List.forall_mem_cons.mp hargs
    rw [orChain?_likePatterns hchain, List.flatMap_eq_nil_iff]
    refine List.forall_mem_map.mpr fun range hrange => listLikePatterns_of_none ?_
    simpa using ⟨haddress, hranges range hrange⟩

theorem call_likePatterns {name : String} {args : List Expr} {t : Expr}
    (hargs : ∀ e ∈ args, e.likePatterns = []) (h : call name args = .ok t) :
    t.likePatterns = [] := by
  obtain ⟨f, insensitive, -, -, htarget⟩ := call_cases h
  cases insensitive with
  | false => exact target_likePatterns hargs htarget
  | true => exact target_likePatterns (lowerTwo_likePatterns hargs) htarget

theorem plainOp?_compare_isSome (op : CompareOp) (right : Expr) :
    (plainOp? op.token right).isSome = true := by
  cases op <;> cases right <;> rfl

theorem likeTest_likePatterns {op : String} (hop : op ∈ ["LIKE", "ILIKE"]) {field pattern : Expr}
    (hfield : field.likePatterns = []) (hpattern : pattern.likePatterns = []) :
    (Expr.binary op field (likeOperand pattern)).likePatterns =
      (string? pattern).toList.map likeText := by
  rw [likePatterns, hfield, List.nil_append]
  cases pattern with
  | const c =>
      cases c with
      | string s => exact if_pos hop
      | _ => rfl
  | symbol | null | fault => rfl
  | _ => exact (List.append_nil _).trans hpattern

theorem patternTest_likePatterns (op : LookupOp) {field pattern : Expr}
    (hfield : field.likePatterns = []) (hpattern : pattern.likePatterns = []) :
    (patternTest op field pattern).likePatterns =
      if isPatternOp op then (string? pattern).toList.map likeText else [] := by
  cases op with
  | like | colon | likeInsensitive => exact likeTest_likePatterns (by decide) hfield hpattern
  | _ => exact listLikePatterns_of_none (by simpa using ⟨hfield, hpattern⟩)

theorem negateIf_likePatterns (negated : Bool) (e : Expr) :
    (negateIf negated e).likePatterns = e.likePatterns := by
  cases negated with
  | false => rfl
  | true => exact List.append_nil _

theorem membership_likePatterns {op : String} (hop : op ∉ ["LIKE", "ILIKE"]) {left : Expr}
    {items : List Expr} (hl : left.likePatterns = []) (hitems : ∀ e ∈ items, e.likePatterns = []) :
    (Expr.binary op left (.array items)).likePatterns = [] := by
  rw [likePatterns_plain hop, hl]
  exact listLikePatterns_of_none hitems

theorem lookup_likePatterns {op : LookupOp} {negated : Bool} {left right t : Expr}
    (hl : left.likePatterns = []) (hoperands : ∀ e ∈ operands right, e.likePatterns = [])
    (h : binary (op.name negated) left right = .ok t) :
    t.likePatterns =
      if isPatternOp op then ((operands right).filterMap string?).map likeText else [] := by
  have hin : inOp negated ∉ ["LIKE", "ILIKE"] := by cases negated <;> decide
  by_cases hlist : op = .inList
  · subst hlist
    rw [binary_lookup] at h
    obtain rfl := Except.ok.inj h
    rw [inLookup_eq]
    exact membership_likePatterns hin hl hoperands
  by_cases hinsensitive : op = .inListInsensitive
  · subst hinsensitive
    rw [binary_lookup] at h
    cases right with
    | array items =>
        obtain rfl := Except.ok.inj h
        refine membership_likePatterns hin ?_ (List.forall_mem_map.mpr fun e he => ?_)
        · exact listLikePatterns_of_none (List.forall_mem_singleton.mpr hl)
        · exact listLikePatterns_of_none (List.forall_mem_singleton.mpr (hoperands e he))
    | _ => cases h
  · rw [binary_patternLookup hlist hinsensitive, patternLookup_eq] at h
    split at h
    · rename_i chain hchain
      obtain rfl := Except.ok.inj h
      rw [negateIf_likePatterns, orChain?_likePatterns hchain, List.flatMap_map,
        List.flatMap_congr fun e he => patternTest_likePatterns op hl (hoperands e he)]
      cases isPatternOp op with
      | true =>
          rw [List.filterMap_eq_flatMap_toList]
          exact (List.map_flatMap ..).symm
      | false => exact List.flatMap_eq_nil_iff.mpr fun _ _ => rfl
    · cases h

theorem operands_of_lookup_error {op : LookupOp} {negated : Bool} {left right : Expr}
    {x : SoftError} (hop : isPatternOp op = true)
    (h : binary (op.name negated) left right = .error x) : operands right = [] := by
  by_contra hne
  have hlist : op ≠ .inList := by
    rintro rfl
    cases hop
  have hinsensitive : op ≠ .inListInsensitive := by
    rintro rfl
    cases hop
  have hfailure := pattern_failure? hlist hinsensitive negated left hne
  rw [h] at hfailure
  cases hfailure

end Dialect

/-! ## Patterns of a query -/

def Literal.text? : Literal → Option String
  | .string raw => some (evalString raw)
  | _ => none

/-- The strings among the operands of a lookup. -/
def LookupTarget.strings : LookupTarget → List String
  | .list items => items.filterMap Literal.text?
  | .value (.literal l) => l.text?.toList
  | .value _ => []

/-- The patterns of a condition from left to right. -/
def Condition.patterns : Condition → List String
  | .not c => c.patterns
  | .group c => c.patterns
  | .logical _ left right => left.patterns ++ right.patterns
  | .lookup _ _ op target => if Dialect.isPatternOp op then target.strings else []
  | _ => []

def SimpleQuery.patterns (q : SimpleQuery) : List String :=
  (q.condition.map Condition.patterns).getD []

section

variable (namer : Namer)

open EventQuery.Expr

theorem Expr.translated_symbol_likePatterns (name : String) :
    ((Expr.symbol name).translated namer).result.likePatterns = [] := by
  rw [translated_symbol]
  cases namer name <;> rfl

theorem Expr.translated_call_likePatterns {name : String} {args : List Expr}
    (hargs : ∀ e ∈ args, (e.translated namer).result.likePatterns = []) :
    ((Expr.call name args).translated namer).result.likePatterns = [] := by
  rw [translated_call]
  exact finish_likePatterns
    (fun t ht => Dialect.call_likePatterns (List.forall_mem_map.mpr hargs) ht) (fun _ _ => rfl)

/-- An operator between values or between conditions. -/
theorem Expr.translated_plain_likePatterns {op : String}
    (hop : ∀ right, (Dialect.plainOp? op right).isSome = true) (left right : Expr) :
    ((Expr.binary op left right).translated namer).result.likePatterns =
      (left.translated namer).result.likePatterns ++
        (right.translated namer).result.likePatterns := by
  have hother : ∀ op ∈ Dialect.plainOps, op ∉ ["LIKE", "ILIKE"] := by decide
  obtain ⟨sqlOp, hsome⟩ :=
    Option.isSome_iff_exists.mp (hop (right.translated namer).result)
  have hstep (left : Expr) : Dialect.step (.binary op left (right.translated namer).result) =
      .ok (.binary sqlOp left (right.translated namer).result) := by
    rw [Dialect.step, Dialect.binary, hsome]
  rw [translated_binary, Mapped.finish, hstep]
  exact likePatterns_plain (hother sqlOp (Dialect.mem_plainOps hsome)) _ _

theorem Value.translated_likePatterns (v : Value) :
    (v.expr.translated namer).result.likePatterns = [] := by
  induction v with
  | null => rfl
  | literal l =>
      rw [expr, l.translated_expr]
      cases l <;> rfl
  | field f => exact translated_symbol_likePatterns namer f.name
  | call name args ih =>
      rw [expr, exprs_eq_map]
      exact translated_call_likePatterns namer (List.forall_mem_map.mpr ih)
  | group v ih => exact ih
  | arith op left right ihl ihr =>
      rw [expr, translated_plain_likePatterns namer (by cases op <;> exact fun _ => rfl), ihl, ihr]
      rfl

theorem Literal.string?_expr (l : Literal) : Dialect.string? l.expr = l.text? := by
  cases l with
  | string raw => rfl
  | boolean raw => rfl
  | number raw =>
      rw [expr]
      cases hraw : evalNumber? raw with
      | none => rfl
      | some c =>
          cases c with
          | string s => exact absurd rfl (evalNumber?_ne_string hraw s)
          | _ => rfl

theorem Value.string?_translated (v : Value) :
    (Dialect.string? (v.expr.translated namer).result).toList = (LookupTarget.value v).strings := by
  cases v with
  | null => rfl
  | literal l =>
      rw [expr, l.translated_expr, l.string?_expr]
      rfl
  | field f =>
      rw [expr, Field.expr, translated_symbol]
      cases namer f.name <;> rfl
  | call name args =>
      rw [expr, translated_call]
      refine Expr.finish_result_induct (P := fun e => (Dialect.string? e).toList = [])
        (fun _ => rfl) fun t ht => ?_
      have hcompound := Dialect.step_isCompound rfl ht
      cases t with
      | const c => cases hcompound
      | _ => rfl
  | group v => rfl
  | arith op left right => cases op <;> rfl

/-- The operands of a lookup hold no patterns, and the strings among them
are those of the query. -/
theorem LookupTarget.operands_strings (target : LookupTarget) :
    (∀ e ∈ Dialect.operands (target.expr.translated namer).result, e.likePatterns = []) ∧
      (Dialect.operands (target.expr.translated namer).result).filterMap Dialect.string? =
        target.strings := by
  cases target with
  | list items =>
      rw [translated_list]
      refine ⟨List.forall_mem_map.mpr fun l _ => ?_, ?_⟩
      · cases l <;> rfl
      · exact (List.filterMap_map ..).trans (List.filterMap_congr fun l _ => l.string?_expr)
  | value v =>
      rw [expr, Dialect.operands_of_ne_array (v.translated_ne_array namer)]
      refine ⟨List.forall_mem_singleton.mpr (v.translated_likePatterns namer), ?_⟩
      rw [← v.string?_translated namer]
      exact List.filterMap_eq_flatMap_toList _ _ |>.trans (List.append_nil _)

theorem Expr.translated_not_likePatterns (e : Expr) :
    ((Expr.unary "not" [e]).translated namer).result.likePatterns =
      (e.translated namer).result.likePatterns := by
  rw [translated_unary]
  exact List.append_nil _

theorem Value.translated_exprs_likePatterns (vs : List Value) :
    ∀ e ∈ exprs vs, (e.translated namer).result.likePatterns = [] := by
  rw [exprs_eq_map]
  exact List.forall_mem_map.mpr fun v _ => v.translated_likePatterns namer

theorem Condition.translated_likePatterns (c : Condition) :
    (c.expr.translated namer).result.likePatterns = c.patterns.map Dialect.likeText := by
  induction c with
  | boolean raw => rfl
  | not c ih => exact (translated_not_likePatterns namer c.expr).trans ih
  | group c ih => exact ih
  | comparison op left right =>
      rw [expr, translated_plain_likePatterns namer (Dialect.plainOp?_compare_isSome op),
        left.translated_likePatterns, right.translated_likePatterns]
      rfl
  | lookup field negated op target =>
      obtain ⟨hoperands, hstrings⟩ := target.operands_strings namer
      have hpatterns : (Condition.lookup field negated op target).patterns =
        if Dialect.isPatternOp op then target.strings else [] := rfl
      rw [expr, translated_binary, hpatterns, ← hstrings]
      refine finish_likePatterns (fun t ht => ?_) (fun x hx => ?_)
      · rw [Dialect.lookup_likePatterns (translated_symbol_likePatterns namer field.name)
          hoperands ht]
        cases Dialect.isPatternOp op <;> rfl
      · cases hop : Dialect.isPatternOp op with
        | false => rfl
        | true =>
          rw [Dialect.operands_of_lookup_error hop hx]
          rfl
  | call name args =>
      exact translated_call_likePatterns namer (Value.translated_exprs_likePatterns namer args)
  | notCall name args =>
      rw [expr, translated_not_likePatterns]
      exact translated_call_likePatterns namer (Value.translated_exprs_likePatterns namer args)
  | logical op left right ihl ihr =>
      rw [expr, translated_plain_likePatterns namer (by cases op <;> exact fun _ => rfl), ihl, ihr,
        patterns, List.map_append]

theorem Category.translated_likePatterns (categoryField text : String) :
    ((Expr.binary "==" (.symbol categoryField) (.string text)).translated namer).result.likePatterns
      = [] := by
  refine (translated_plain_likePatterns namer (Dialect.plainOp?_compare_isSome .eq) _ _).trans ?_
  rw [translated_symbol_likePatterns]
  rfl

/-- The patterns of a query arrive in the form of SQL. -/
theorem SimpleQuery.translated_likePatterns {q : SimpleQuery} {categoryField : String} {e : Expr}
    (he : q.expr? categoryField = some e) :
    (e.translated namer).result.likePatterns = q.patterns.map Dialect.likeText := by
  rcases expr?_cases he with ⟨c, text, hc, -, rfl⟩ | ⟨c, hc, -, rfl⟩ | ⟨text, hc, -, rfl⟩
  · rw [translated_plain_likePatterns namer (fun _ => rfl), c.translated_likePatterns,
      Category.translated_likePatterns, List.append_nil, patterns, hc]
    rfl
  · rw [c.translated_likePatterns, patterns, hc]
    rfl
  · rw [Category.translated_likePatterns, patterns, hc]
    rfl

end

end EventQuery
