import EventQuery.Proofs.DialectMaps
import EventQuery.Proofs.LikePatterns

/-!
# Parentheses around operands

Parentheses of a query stay in its tree as groups. `Expr.ungrouped` is the
tree without them, and the question is whether the dialect does the same
with and without.

For values it does: a step over a call or an arithmetic operator looks at
the name and the number of the operands, never at what they are
(`Value.translated_ungrouped`). Two steps over conditions do look, and see
the parentheses instead of what stands in them: an equality asks whether
its right operand is a null, and a pattern is put into the form of SQL if
it is a string. So a null in parentheses is compared by `=`, and the
wildcards of a pattern in parentheses are taken as they stand.
`Condition.Transparent` rules out just these, and the dialect commutes with
removing the parentheses of a query if and only if its condition is
transparent (`toDialect_ungrouped_iff`). The errors are the same in every
case.
-/

namespace EventQuery

/-! ## Trees without parentheses -/

namespace Expr

mutual

/-- An expression without its parentheses. -/
def ungrouped : Expr → Expr
  | .group e => e.ungrouped
  | .binary op left right => .binary op left.ungrouped right.ungrouped
  | .unary op args => .unary op (listUngrouped args)
  | .call name args => .call name (listUngrouped args)
  | .array items => .array (listUngrouped items)
  | .const c => .const c
  | .symbol name => .symbol name
  | .null => .null
  | .fault message => .fault message

def listUngrouped : List Expr → List Expr
  | [] => []
  | e :: es => e.ungrouped :: listUngrouped es

end

theorem listUngrouped_eq_map (es : List Expr) : listUngrouped es = es.map ungrouped := by
  induction es with
  | nil => rfl
  | cons e es ih => rw [listUngrouped, ih, List.map_cons]

theorem ungrouped_call (name : String) (args : List Expr) :
    (Expr.call name args).ungrouped = .call name (args.map ungrouped) := by
  rw [ungrouped, listUngrouped_eq_map]

theorem ungrouped_array (items : List Expr) :
    (Expr.array items).ungrouped = .array (items.map ungrouped) := by
  rw [ungrouped, listUngrouped_eq_map]

theorem ungrouped_keepsOperations : KeepsOperations ungrouped where
  binary _ _ _ := rfl
  unary op args := congrArg (Expr.unary op) (listUngrouped_eq_map args)
  call := ungrouped_call
  array := ungrouped_array

/-! ## What a step sees of an operand -/

theorem kind_const (c : Const) :
    (Expr.const c).kind = ((Dialect.string? (.const c)).map Kind.text).getD .other := by
  cases c <;> rfl

/-- An operator, a call or a fault. -/
def isOperation : Expr → Bool
  | .binary .. | .unary .. | .call .. | .fault _ => true
  | _ => false

theorem isOperation_of_isCompound {e : Expr} (h : e.isCompound = true) :
    e.isOperation = true := by
  cases e with
  | binary | unary | call => rfl
  | _ => cases h

theorem kind_of_isOperation {e : Expr} (h : e.isOperation = true) : e.kind = .other := by
  cases e with
  | binary | unary | call | fault => rfl
  | _ => cases h

theorem ungrouped_kind {e : Expr} (h : ∀ e', e ≠ .group e') : e.ungrouped.kind = e.kind := by
  cases e with
  | const c => cases c <;> rfl
  | group e' => exact absurd rfl (h e')
  | _ => rfl

end Expr

/-- A mapped tree without its parentheses. -/
def Mapped.ungrouped (m : Mapped Expr) : Mapped Expr := ⟨m.result.ungrouped, m.errors⟩

/-- If a step does the same without parentheses, so does finishing a
node. -/
theorem Mapped.finish_ungrouped (step : Expr → Except SoftError Expr) (node : Expr)
    (h : step node.ungrouped = (step node).map Expr.ungrouped) (errors : List SoftError) :
    Mapped.finish step ⟨node.ungrouped, errors⟩ =
      (Mapped.finish step ⟨node, errors⟩).ungrouped :=
  Mapped.finish_under (fun _ => rfl) h errors

/-! ## Steps of the dialect -/

namespace Dialect

open EventQuery.Expr

theorem negateIf_inj {negated : Bool} {e e' : Expr} :
    negateIf negated e = negateIf negated e' ↔ e = e' := by
  cases negated <;> simp [negateIf]

theorem finish_isOperation {node : Mapped Expr} (h : node.result.isCompound = true) :
    (Mapped.finish step node).result.isOperation = true :=
  finish_result_induct (P := (·.isOperation = true)) (fun _ => rfl)
    fun _ ht => isOperation_of_isCompound (step_isCompound h ht)

/-! ### Comparisons -/

def isEquality : CompareOp → Bool
  | .eq | .notEq => true
  | _ => false

/-- The SQL operator for a comparison with an operand of this kind. -/
def comparisonOp : CompareOp → Kind → String
  | .eq, .null => "IS"
  | .eq, _ => "="
  | .notEq, .null => "IS NOT"
  | .notEq, _ => "<>"
  | op, _ => op.token

theorem binary_compare (op : CompareOp) (left right : Expr) :
    binary op.token left right = .ok (.binary (comparisonOp op right.kind) left right) := by
  cases right with
  | const c => cases op <;> cases c <;> rfl
  | _ => cases op <;> rfl

/-- Only an equality looks at its operand, and only for a null. -/
theorem comparisonOp_eq_iff {op : CompareOp} {kind kind' : Kind} :
    comparisonOp op kind = comparisonOp op kind' ↔
      (isEquality op = true → (kind = .null ↔ kind' = .null)) := by
  cases op <;> cases kind <;> cases kind' <;> simp [comparisonOp, isEquality, CompareOp.token]

/-! ### Lookups -/

theorem likeOperand_eq (e : Expr) : likeOperand e =
    match e.kind with
    | .text s => .string (likeText s)
    | _ => e := by
  cases e with
  | const c => cases c <;> rfl
  | _ => rfl

/-- Without its parentheses an operand may turn out to be a string. -/
theorem likeOperand_ungrouped_iff {e : Expr} :
    (likeOperand e).ungrouped = likeOperand e.ungrouped ↔
      ∀ s, e.ungrouped.kind = .text s → e.kind = .text s ∨ likeText s = s := by
  by_cases he : ∃ s, e.kind = .text s
  · obtain ⟨s, hs⟩ := he
    obtain rfl := eq_of_kind_text hs
    exact iff_of_true rfl fun _ => .inl
  · have hsame : likeOperand e = e := by
      rw [likeOperand_eq]
      split
      · rename_i s hs
        exact absurd ⟨s, hs⟩ he
      · rfl
    rw [hsame, likeOperand_eq]
    split
    · rename_i s hs
      have hnot : e.kind ≠ .text s := fun h => he ⟨s, h⟩
      rw [eq_of_kind_text hs]
      constructor
      · intro hlike s' hs'
        obtain rfl : s = s' := Kind.text.inj hs'
        exact .inr (by simpa [Expr.string] using hlike.symm)
      · intro h
        rw [Expr.string, (h s rfl).resolve_left hnot]
    · rename_i hother
      exact iff_of_true rfl fun s hs => absurd hs (hother s)

theorem patternTest_ungrouped_iff {op : LookupOp} (field : Expr) {pattern : Expr} :
    (patternTest op field pattern).ungrouped =
        patternTest op field.ungrouped pattern.ungrouped ↔
      (isPatternOp op = true →
        (likeOperand pattern).ungrouped = likeOperand pattern.ungrouped) := by
  cases op <;> simp [patternTest, isPatternOp, ungrouped, listUngrouped]

/-- A lookup of one value that does not fail. -/
def valueTest (op : LookupOp) (negated : Bool) (left right : Expr) : Expr :=
  match op with
  | .inList => .binary (inOp negated) left (.array [right])
  | op => negateIf negated (patternTest op left right)

theorem valueTest_ungrouped_iff {op : LookupOp} {negated : Bool} {left right : Expr} :
    (valueTest op negated left right).ungrouped =
        valueTest op negated left.ungrouped right.ungrouped ↔
      (isPatternOp op = true → (likeOperand right).ungrouped = likeOperand right.ungrouped) := by
  cases op with
  | inList => simp [valueTest, isPatternOp, ungrouped, listUngrouped]
  | _ =>
      rw [← patternTest_ungrouped_iff left]
      refine .trans (iff_of_eq (congrArg (· = _) ?_)) negateIf_inj
      exact ungrouped_keepsOperations.negateIf_map negated _

theorem binary_value {op : LookupOp} (hop : op ≠ .inListInsensitive) (negated : Bool) (left : Expr)
    {right : Expr} (h : ∀ items, right ≠ .array items) :
    binary (op.name negated) left right = .ok (valueTest op negated left right) := by
  rw [binary_lookup]
  cases right with
  | array items => exact absurd rfl (h items)
  | _ =>
      cases op with
      | inListInsensitive => exact absurd rfl hop
      | _ => rfl

theorem binary_value_insensitive (negated : Bool) (left : Expr) {right : Expr}
    (h : ∀ items, right ≠ .array items) :
    binary (LookupOp.inListInsensitive.name negated) left right =
      .error (.needsList (LookupOp.inListInsensitive.name negated)) := by
  rw [binary_lookup]
  cases right with
  | array items => exact absurd rfl (h items)
  | _ => rfl

/-- A lookup over a list without parentheses. -/
theorem binary_list_ungrouped (op : LookupOp) (negated : Bool) (left : Expr) {items : List Expr}
    (h : ∀ e ∈ items, (likeOperand e).ungrouped = likeOperand e.ungrouped) :
    binary (op.name negated) left.ungrouped (.array (items.map ungrouped)) =
      (binary (op.name negated) left (.array items)).map ungrouped := by
  by_cases hlist : op = .inList
  · subst hlist
    rw [binary_lookup, binary_lookup]
    exact congrArg (fun e => Except.ok (Expr.binary (inOp negated) left.ungrouped e))
      (ungrouped_array items).symm
  by_cases hinsensitive : op = .inListInsensitive
  · subst hinsensitive
    have hlower : (items.map ungrouped).map lower = (items.map lower).map ungrouped := by
      rw [List.map_map, List.map_map]
      rfl
    rw [binary_lookup, binary_lookup]
    exact congrArg (fun e => Except.ok (Expr.binary (inOp negated) (lower left.ungrouped) e))
      ((congrArg Expr.array hlower).trans (ungrouped_array _).symm)
  · have htests : (items.map ungrouped).map (patternTest op left.ungrouped) =
        (items.map (patternTest op left)).map ungrouped := by
      rw [List.map_map, List.map_map]
      refine List.map_congr_left fun e he => ?_
      exact ((patternTest_ungrouped_iff left).mpr fun _ => h e he).symm
    rw [binary_patternLookup hlist hinsensitive, binary_patternLookup hlist hinsensitive,
      patternLookup_eq, patternLookup_eq, operands, operands, htests,
      ungrouped_keepsOperations.orChain?_map]
    cases orChain? (items.map (patternTest op left)) with
    | none => rfl
    | some chain =>
        exact congrArg Except.ok (ungrouped_keepsOperations.negateIf_map negated chain).symm

end Dialect

/-! ## Values -/

namespace Value

/-- The value in the parentheses around it, if there are any. -/
def bare : Value → Value
  | .group v => v.bare
  | v => v

theorem bare_ne_group (v w : Value) : v.bare ≠ .group w := by
  induction v with
  | group v ih => exact ih
  | _ => exact fun h => by cases h

/-- What a step sees of a value. -/
def kind : Value → Expr.Kind
  | .null => .null
  | .literal l => (l.text?.map Expr.Kind.text).getD .other
  | _ => .other

theorem kind_eq_null_iff {v : Value} : v.kind = .null ↔ v = .null := by
  cases v with
  | literal l => cases l <;> simp [kind, Literal.text?]
  | _ => simp [kind]

theorem kind_eq_text_iff {v : Value} {s : String} :
    v.kind = .text s ↔ ∃ raw, v = .literal (.string raw) ∧ Literal.evalString raw = s := by
  cases v with
  | literal l => cases l <;> simp [kind, Literal.text?]
  | _ => simp [kind]

theorem kind_ne_list (v : Value) : v.kind ≠ .list := by
  cases v with
  | literal l => cases l <;> simp [kind, Literal.text?]
  | _ => simp [kind]

section

variable (namer : Namer)

open EventQuery.Expr

theorem exprs_results_ungrouped {vs : List Value} (ih : ∀ v ∈ vs,
      v.expr.ungrouped.translated namer = (v.expr.translated namer).ungrouped) :
    ((exprs vs).map ungrouped).map (fun e => (e.translated namer).result) =
      ((exprs vs).map fun e => (e.translated namer).result).map ungrouped := by
  rw [exprs_eq_map, List.map_map, List.map_map, List.map_map, List.map_map]
  exact List.map_congr_left fun v hv => congrArg Mapped.result (ih v hv)

theorem exprs_errors_ungrouped {vs : List Value} (ih : ∀ v ∈ vs,
      v.expr.ungrouped.translated namer = (v.expr.translated namer).ungrouped) :
    ((exprs vs).map ungrouped).flatMap (fun e => (e.translated namer).errors) =
      (exprs vs).flatMap fun e => (e.translated namer).errors := by
  rw [exprs_eq_map, List.map_map, List.flatMap_map, List.flatMap_map]
  refine List.flatMap_congr fun v hv => ?_
  have herrors := congrArg Mapped.errors (ih v hv)
  exact herrors

theorem call_ungrouped {name : CallName} {args : List Value} (ih : ∀ v ∈ args,
      v.expr.ungrouped.translated namer = (v.expr.translated namer).ungrouped) :
    (Expr.call name.text (exprs args)).ungrouped.translated namer =
      ((Expr.call name.text (exprs args)).translated namer).ungrouped := by
  rw [ungrouped_call, translated_call, translated_call, exprs_results_ungrouped namer ih,
    exprs_errors_ungrouped namer ih, ← ungrouped_call]
  refine Mapped.finish_ungrouped _ _ ?_ _
  rw [ungrouped_call]
  exact ungrouped_keepsOperations.call_map _ _

/-- The dialect does the same with a value without its parentheses. -/
theorem translated_ungrouped (v : Value) :
    v.expr.ungrouped.translated namer = (v.expr.translated namer).ungrouped := by
  induction v with
  | null => rfl
  | literal l => cases l <;> rfl
  | field f =>
      rw [expr, Field.expr, ungrouped, translated_symbol]
      cases namer f.name <;> rfl
  | call name args ih => exact call_ungrouped namer ih
  | group v ih => exact ih
  | arith op left right ihl ihr =>
      rw [expr, ungrouped, translated_arith, translated_arith, ihl, ihr]
      rfl

theorem call_isOperation (name : CallName) (args : List Value) :
    ((Expr.call name.text (exprs args)).translated namer).result.isOperation = true := by
  rw [translated_call]
  exact Dialect.finish_isOperation rfl

theorem translated_kind (v : Value) : (v.expr.translated namer).result.kind = v.kind := by
  cases v with
  | null => rfl
  | literal l =>
      rw [expr, l.translated_expr, kind, ← l.string?_expr]
      cases l <;> exact kind_const _
  | field f =>
      rw [expr, Field.expr, translated_symbol]
      cases namer f.name <;> rfl
  | call name args => exact kind_of_isOperation (call_isOperation namer name args)
  | group v => rfl
  | arith op left right => cases op <;> rfl

theorem translated_ne_group {v : Value} (h : ∀ w, v ≠ .group w) (e : Expr) :
    (v.expr.translated namer).result ≠ .group e := by
  cases v with
  | null => exact fun h => by cases h
  | literal l => cases l <;> exact fun h => by cases h
  | field f =>
      rw [expr, Field.expr, translated_symbol]
      cases namer f.name <;> exact fun h => by cases h
  | call name args =>
      intro hgroup
      have hoperation := call_isOperation namer name args
      rw [expr] at hgroup
      rw [hgroup] at hoperation
      cases hoperation
  | group w => exact absurd rfl (h w)
  | arith op left right => cases op <;> exact fun h => by cases h

theorem translated_bare (v : Value) : (v.bare.expr.translated namer).result.ungrouped =
    (v.expr.translated namer).result.ungrouped := by
  induction v with
  | group v ih => exact ih
  | _ => rfl

/-- Without parentheses a step sees what stands in them. -/
theorem translated_ungrouped_kind (v : Value) :
    (v.expr.translated namer).result.ungrouped.kind = v.bare.kind := by
  rw [← translated_bare, ungrouped_kind (translated_ne_group namer v.bare_ne_group),
    translated_kind]

end

end Value

/-! ## Conditions -/

/-- No equality of the condition has a null in parentheses on its right, and
no pattern stands in parentheses that SQL writes otherwise. -/
def Condition.Transparent : Condition → Prop
  | .boolean _ => True
  | .not c => c.Transparent
  | .group c => c.Transparent
  | .comparison op _ right => Dialect.isEquality op = true → right.bare = .null → right = .null
  | .lookup _ _ op (.value v) => Dialect.isPatternOp op = true →
      ∀ raw, v.bare = .literal (.string raw) → v = .literal (.string raw) ∨
        Dialect.likeText (Literal.evalString raw) = Literal.evalString raw
  | .lookup _ _ _ (.list _) => True
  | .call _ _ => True
  | .notCall _ _ => True
  | .logical _ left right => left.Transparent ∧ right.Transparent

section

variable (namer : Namer)

open EventQuery.Expr

/-- Both passes do the same with and without the parentheses of a tree if,
and only if, something holds. They report the same in any case. -/
structure Expr.CommutesIff (e : Expr) (p : Prop) : Prop where
  errors : (e.ungrouped.translated namer).errors = (e.translated namer).errors
  result : (e.translated namer).result.ungrouped = (e.ungrouped.translated namer).result ↔ p

namespace Expr

theorem CommutesIff.of_eq {e : Expr}
    (h : e.ungrouped.translated namer = (e.translated namer).ungrouped) :
    e.CommutesIff namer True := by
  constructor
  · rw [h]
    rfl
  · rw [h]
    exact iff_of_true rfl trivial

theorem translated_compare (op : CompareOp) (left right : Expr) :
    (Expr.binary op.token left right).translated namer =
      ⟨.binary (Dialect.comparisonOp op (right.translated namer).result.kind)
          (left.translated namer).result (right.translated namer).result,
        (left.translated namer).errors ++ (right.translated namer).errors⟩ := by
  rw [translated_binary, Mapped.finish, Dialect.step, Dialect.binary_compare]

variable {namer}

theorem translated_lookup {op : LookupOp} (hop : op ≠ .inListInsensitive) (negated : Bool)
    {left right : Expr} (h : ∀ items, (right.translated namer).result ≠ .array items) :
    (Expr.binary (op.name negated) left right).translated namer =
      ⟨Dialect.valueTest op negated (left.translated namer).result (right.translated namer).result,
        (left.translated namer).errors ++ (right.translated namer).errors⟩ := by
  rw [translated_binary, Mapped.finish, Dialect.step, Dialect.binary_value hop negated _ h]

theorem CommutesIff.not {e : Expr} {p : Prop} (h : e.CommutesIff namer p) :
    (Expr.unary "not" [e]).CommutesIff namer p := by
  have hungrouped : (Expr.unary "not" [e]).ungrouped = .unary "not" [e.ungrouped] := rfl
  constructor
  · rw [hungrouped, translated_not, translated_not]
    exact h.errors
  · rw [hungrouped, translated_not, translated_not, ← h.result]
    simp [ungrouped, listUngrouped]

theorem CommutesIff.logic {left right : Expr} {p q : Prop} (hl : left.CommutesIff namer p)
    (hr : right.CommutesIff namer q) (op : LogicOp) :
    (Expr.binary op.token left right).CommutesIff namer (p ∧ q) := by
  obtain ⟨sqlOp, htranslated⟩ := translated_logic namer op
  constructor
  · rw [ungrouped, htranslated, htranslated, hl.errors, hr.errors]
  · rw [ungrouped, htranslated, htranslated, ← hl.result, ← hr.result, ungrouped]
    simp

end Expr

theorem Field.translated_ungrouped (f : Field) :
    f.expr.ungrouped.translated namer = (f.expr.translated namer).ungrouped :=
  Value.translated_ungrouped namer (.field f)

/-- A comparison commutes if its right operand is as much a null with its
parentheses as without. -/
theorem Value.comparison_commutesIff (op : CompareOp) (left right : Value) :
    (Expr.binary op.token left.expr right.expr).CommutesIff namer
      (Dialect.isEquality op = true → right.bare = .null → right = .null) := by
  have hl := left.translated_ungrouped namer
  have hr := right.translated_ungrouped namer
  have hbare : right = .null → right.bare = .null := by
    rintro rfl
    rfl
  constructor
  · rw [ungrouped, translated_compare, translated_compare, hl, hr]
    rfl
  · rw [ungrouped, translated_compare, translated_compare, hl, hr, ungrouped, Expr.binary.injEq]
    change Dialect.comparisonOp op (right.expr.translated namer).result.kind =
      Dialect.comparisonOp op (right.expr.translated namer).result.ungrouped.kind ∧ _ ↔ _
    rw [translated_kind, translated_ungrouped_kind, Dialect.comparisonOp_eq_iff, kind_eq_null_iff,
      kind_eq_null_iff]
    constructor
    · exact fun h hop => (h.1 hop).mpr
    · exact fun h => ⟨fun hop => ⟨hbare, h hop⟩, rfl, rfl⟩

/-- A pattern is escaped without its parentheses as it is with them. -/
theorem Value.likeOperand_ungrouped_iff (v : Value) :
    (Dialect.likeOperand (v.expr.translated namer).result).ungrouped =
        Dialect.likeOperand (v.expr.translated namer).result.ungrouped ↔
      ∀ raw, v.bare = .literal (.string raw) → v = .literal (.string raw) ∨
        Dialect.likeText (Literal.evalString raw) = Literal.evalString raw := by
  rw [Dialect.likeOperand_ungrouped_iff, translated_kind, translated_ungrouped_kind]
  constructor
  · intro h raw hraw
    refine (h _ (kind_eq_text_iff.mpr ⟨raw, hraw, rfl⟩)).imp_left fun htext => ?_
    obtain ⟨raw', rfl, -⟩ := kind_eq_text_iff.mp htext
    exact hraw
  · rintro h s hs
    obtain ⟨raw, hraw, rfl⟩ := kind_eq_text_iff.mp hs
    exact (h raw hraw).imp_left fun hv => kind_eq_text_iff.mpr ⟨raw, hv, rfl⟩

/-- A lookup commutes if its pattern is escaped alike. One that wants a list
fails alike. -/
theorem Value.lookup_commutesIff (field : Field) (negated : Bool) (op : LookupOp) (v : Value) :
    (Expr.binary (op.name negated) field.expr v.expr).CommutesIff namer
      (Condition.lookup field negated op (.value v)).Transparent := by
  have hf := field.translated_ungrouped namer
  have hv := v.translated_ungrouped namer
  have hgrouped := ne_array_of_kind (e := (v.expr.translated namer).result)
    (by rw [translated_kind]; exact v.kind_ne_list)
  have hbare := ne_array_of_kind (e := (v.expr.translated namer).ungrouped.result)
    (by rw [Mapped.ungrouped, translated_ungrouped_kind]; exact v.bare.kind_ne_list)
  by_cases hop : op = .inListInsensitive
  · subst hop
    have htrivial : (Condition.lookup field negated .inListInsensitive (.value v)).Transparent :=
      fun h => by cases h
    rw [eq_true htrivial]
    refine .of_eq namer ?_
    rw [ungrouped, translated_binary, translated_binary, hf, hv]
    refine Mapped.finish_ungrouped _ (.binary _ _ _) ?_ _
    change Dialect.binary _ _ _ = (Dialect.binary _ _ _).map _
    rw [Dialect.binary_value_insensitive negated _ hgrouped]
    exact Dialect.binary_value_insensitive negated _ hbare
  · constructor
    · rw [ungrouped, translated_lookup hop negated hgrouped,
        translated_lookup hop negated (by rwa [hv]), hf, hv]
      rfl
    · rw [ungrouped, translated_lookup hop negated hgrouped,
        translated_lookup hop negated (by rwa [hv]), hf, hv]
      refine Dialect.valueTest_ungrouped_iff.trans ?_
      rw [likeOperand_ungrouped_iff]
      rfl

theorem Literal.ungrouped_expr (l : Literal) : l.expr.ungrouped = l.expr := by
  cases l <;> rfl

theorem Literal.likeOperand_ungrouped (l : Literal) :
    (Dialect.likeOperand l.expr).ungrouped = Dialect.likeOperand l.expr.ungrouped := by
  rw [l.ungrouped_expr, Dialect.likeOperand_eq]
  cases l.expr.kind with
  | text s => rfl
  | _ => exact l.ungrouped_expr

theorem LookupTarget.list_ungrouped (field : Field) (negated : Bool) (op : LookupOp)
    (items : List Literal) :
    (Expr.binary (op.name negated) field.expr (list items).expr).ungrouped.translated namer =
      ((Expr.binary (op.name negated) field.expr (list items).expr).translated
        namer).ungrouped := by
  have hitems : (items.map Literal.expr).map ungrouped = items.map Literal.expr := by
    rw [List.map_map]
    exact List.map_congr_left fun l _ => l.ungrouped_expr
  have harray : (list items).expr.ungrouped = (list items).expr := by
    rw [expr, ungrouped_array, hitems]
  have hstep := Dialect.binary_list_ungrouped op negated (field.expr.translated namer).result
    (List.forall_mem_map.mpr fun l _ => l.likeOperand_ungrouped : ∀ e ∈ items.map Literal.expr, _)
  have hfinish := Mapped.finish_ungrouped Dialect.step
    (.binary (op.name negated) (field.expr.translated namer).result
      (.array (items.map Literal.expr)))
    (by rw [ungrouped, ungrouped_array]; exact hstep)
  rw [ungrouped, ungrouped_array, hitems] at hfinish
  rw [ungrouped, harray, translated_binary, translated_binary, field.translated_ungrouped,
    translated_list]
  exact hfinish _

theorem Condition.commutesIff (c : Condition) : c.expr.CommutesIff namer c.Transparent := by
  induction c with
  | boolean raw => exact ⟨rfl, iff_of_true rfl trivial⟩
  | not c ih => exact ih.not
  | group c ih => exact ⟨ih.errors, ih.result⟩
  | comparison op left right => exact Value.comparison_commutesIff namer op left right
  | lookup field negated op target =>
      cases target with
      | list items => exact .of_eq namer (LookupTarget.list_ungrouped namer field negated op items)
      | value v => exact v.lookup_commutesIff namer field negated op
  | call name args =>
      exact .of_eq namer (Value.call_ungrouped namer fun v _ => v.translated_ungrouped namer)
  | notCall name args =>
      exact (CommutesIff.of_eq namer
        (Value.call_ungrouped namer fun v _ => v.translated_ungrouped namer)).not
  | logical op left right ihl ihr => exact ihl.logic ihr op

theorem Category.commutesIff (categoryField text : String) :
    (Expr.binary "==" (.symbol categoryField) (.string text)).CommutesIff namer True := by
  refine .of_eq namer ?_
  change (Expr.binary CompareOp.eq.token (.symbol categoryField) (.string text)).translated namer =
    ((Expr.binary CompareOp.eq.token (.symbol categoryField) (.string text)).translated
      namer).ungrouped
  rw [translated_compare, translated_symbol]
  cases namer categoryField <;> rfl

theorem SimpleQuery.commutesIff {q : SimpleQuery} {categoryField : String} {e : Expr}
    (he : q.expr? categoryField = some e) :
    e.CommutesIff namer (∀ c, q.condition = some c → c.Transparent) := by
  rcases expr?_cases he with ⟨c, text, hc, -, rfl⟩ | ⟨c, hc, -, rfl⟩ | ⟨text, hc, -, rfl⟩
  · have hand := (c.commutesIff namer).logic (Category.commutesIff namer categoryField text) .and
    simpa [hc, LogicOp.token] using hand
  · simpa [hc] using c.commutesIff namer
  · simpa [hc] using Category.commutesIff namer categoryField text

end

/-! ## The headline theorem -/

/-- **Parentheses that the dialect looks at.** Without its parentheses, the
tree of a query leads to the same errors. It leads to the same tree, up to
parentheses, if and only if no equality of the query has a null in
parentheses on its right, and no pattern stands in parentheses that SQL
writes otherwise. -/
theorem toDialect_ungrouped_iff {text categoryField : String} {e : Expr}
    (h : lowerText text categoryField = .ok (some e)) :
    ∃ q, parse text = .ok ⟨.simple q, []⟩ ∧ q.expr? categoryField = some e ∧
      e.ungrouped.toDialect.errors = e.toDialect.errors ∧
      (e.toDialect.result.ungrouped = e.ungrouped.toDialect.result ↔
        ∀ c, q.condition = some c → c.Transparent) := by
  obtain ⟨q, hparse, -, he⟩ := lowerText_eq_ok_iff.mp h
  have hcommutes := SimpleQuery.commutesIff .identity he.symm
  refine ⟨q, hparse, he.symm, ?_, ?_⟩
  · simpa only [Expr.translated_identity] using hcommutes.errors
  · simpa only [Expr.translated_identity] using hcommutes.result

/-- Parentheses around a field, a number, an argument and a pattern without
wildcards. -/
theorem toDialect_ungrouped_harmless :
    ∃ e, lowerText "any where (a) == ((1)) and b like ((\"c\")) and length((d)) > (e + 1)"
        "event.category" = .ok (some e) ∧
      e.ungrouped ≠ e ∧ e.toDialect.result.ungrouped = e.ungrouped.toDialect.result := by
  have hread : parse "any where (a) == ((1)) and b like ((\"c\")) and length((d)) > (e + 1)" =
      .ok ⟨.simple ⟨.any, some (.logical .and (.logical .and
        (.comparison .eq (.group (.field ⟨"a", false⟩)) (.group (.group (.literal (.number "1")))))
        (.lookup ⟨"b", false⟩ false .like (.value (.group (.group (.literal (.string "\"c\"")))))))
        (.comparison .greater (.call ⟨.length, false⟩ [.group (.field ⟨"d", false⟩)])
          (.group (.arith .add (.field ⟨"e", false⟩) (.literal (.number "1"))))))⟩, []⟩ :=
    parse_of_finish rfl rfl
  have hlower : lowerText _ "event.category" = _ := lowerText_eq_ok_iff.mpr ⟨_, hread, rfl, rfl⟩
  obtain ⟨q, hparse, -, -, hiff⟩ := toDialect_ungrouped_iff hlower
  cases hread.symm.trans hparse
  refine ⟨_, hlower, nofun, hiff.mpr ?_⟩
  rintro c ⟨⟩
  refine ⟨⟨nofun, fun _ raw hraw => .inr ?_⟩, nofun⟩
  cases hraw
  rfl

/-- In parentheses the percent sign of a pattern stays a wildcard. -/
theorem grouped_pattern_not_escaped :
    ∃ e, lowerText "any where a like ((\"50%\"))" "event.category" = .ok (some e) ∧
      e.toDialect.result.ungrouped = .binary "LIKE" (.symbol "a") (.string "50%") ∧
      e.ungrouped.toDialect.result = .binary "LIKE" (.symbol "a") (.string "50\\%") :=
  have hread : parse "any where a like ((\"50%\"))" = .ok ⟨.simple ⟨.any,
      some (.lookup ⟨"a", false⟩ false .like
        (.value (.group (.group (.literal (.string "\"50%\""))))))⟩, []⟩ := parse_of_finish rfl rfl
  ⟨_, lowerText_eq_ok_iff.mpr ⟨_, hread, rfl, rfl⟩, rfl, rfl⟩

end EventQuery
