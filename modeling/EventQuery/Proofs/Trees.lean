import EventQuery.Expr.Lower
import EventQuery.Expr.Pass
import EventQuery.Query.Fields
import Mathlib.Data.List.Forall2

/-!
# Induction over values and expressions

Values and expressions hold lists of themselves. `Value.induct` and
`Expr.induct` are the induction principles one wants: the hypothesis for a
list says that every member has the property.

The functions over a tree come with a twin over lists of trees. Here each
twin is put in terms of `map`, `flatMap` and the like, so that later
proofs need the lemmas of lists and no second induction.
-/

namespace EventQuery

/-! ## Values -/

namespace Value

/-- Induction over values. -/
@[elab_as_elim, induction_eliminator]
theorem induct {P : Value → Prop} (null : P .null) (literal : ∀ l, P (.literal l))
    (field : ∀ f, P (.field f))
    (call : ∀ name args, (∀ v ∈ args, P v) → P (.call name args))
    (group : ∀ v, P v → P (.group v))
    (arith : ∀ op left right, P left → P right → P (.arith op left right)) (v : Value) : P v :=
  @Value.rec P (fun args => ∀ v ∈ args, P v) null literal field call group arith
    (by simp) (fun _ _ hv hargs => List.forall_mem_cons.mpr ⟨hv, hargs⟩) v

theorem exprs_eq_map (vs : List Value) : exprs vs = vs.map expr := by
  induction vs with
  | nil => rfl
  | cons v vs ih => rw [exprs, ih, List.map_cons]

end Value

/-! ## Expressions -/

namespace Expr

/-- Induction over expressions. -/
@[elab_as_elim, induction_eliminator]
theorem induct {P : Expr → Prop} (const : ∀ c, P (.const c)) (symbol : ∀ name, P (.symbol name))
    (null : P .null) (group : ∀ e, P e → P (.group e))
    (binary : ∀ op left right, P left → P right → P (.binary op left right))
    (unary : ∀ op args, (∀ e ∈ args, P e) → P (.unary op args))
    (call : ∀ name args, (∀ e ∈ args, P e) → P (.call name args))
    (array : ∀ items, (∀ e ∈ items, P e) → P (.array items))
    (fault : ∀ message, P (.fault message)) (e : Expr) : P e :=
  @Expr.rec P (fun args => ∀ e ∈ args, P e) const symbol null group binary unary call
    array fault (by simp) (fun _ _ he hargs => List.forall_mem_cons.mpr ⟨he, hargs⟩) e

section BottomUp

variable {step : Expr → Except SoftError Expr}

/-! ### Finished nodes -/

theorem finish_of_ok {node : Mapped Expr} {t : Expr} (h : step node.result = .ok t) :
    Mapped.finish step node = ⟨t, node.errors⟩ := by
  rw [Mapped.finish, h]

theorem finish_of_error {node : Mapped Expr} {x : SoftError} (h : step node.result = .error x) :
    Mapped.finish step node = ⟨.fault x.message, node.errors ++ [x]⟩ := by
  rw [Mapped.finish, h]

/-- A finished node is what the step makes of it, or a fault. -/
theorem finish_result_induct {P : Expr → Prop} {node : Mapped Expr}
    (hfault : ∀ message, P (.fault message)) (hok : ∀ t, step node.result = .ok t → P t) :
    P (Mapped.finish step node).result := by
  cases h : step node.result with
  | ok t =>
      rw [finish_of_ok h]
      exact hok t h
  | error x =>
      rw [finish_of_error h]
      exact hfault x.message

/-! ### Whole passes -/

variable (step)

theorem bottomUpList_result (es : List Expr) :
    (bottomUpList step es).result = es.map fun e => (bottomUp step e).result := by
  induction es with
  | nil => rfl
  | cons e es ih => simp only [bottomUpList, ih, List.map_cons]

/-- The parts of a node. -/
def children : Expr → List Expr
  | .group e => [e]
  | .binary _ left right => [left, right]
  | .unary _ args => args
  | .call _ args => args
  | .array items => items
  | _ => []

/-- Faults have a property, and a step gives it to every node whose parts
have it: then the whole result of the pass has it. -/
theorem bottomUp_result_induct {P : Expr → Prop} (hfault : ∀ message, P (.fault message))
    (hstep : ∀ node t, (∀ e ∈ node.children, P e) → step node = .ok t → P t) (e : Expr) :
    P (bottomUp step e).result := by
  have hfinish : ∀ node : Mapped Expr, (∀ e ∈ node.result.children, P e) →
      P (Mapped.finish step node).result := fun _ hparts =>
    finish_result_induct hfault fun t ht => hstep _ t hparts ht
  have hlist : ∀ es : List Expr, (∀ e ∈ es, P (bottomUp step e).result) →
      ∀ e ∈ (bottomUpList step es).result, P e := by
    intro es hes t ht
    rw [bottomUpList_result] at ht
    obtain ⟨e, he, rfl⟩ := List.mem_map.mp ht
    exact hes e he
  induction e with
  | group e ih => exact hfinish _ (by simpa [children] using ih)
  | binary op left right ihl ihr => exact hfinish _ (by simpa [children] using ⟨ihl, ihr⟩)
  | unary op args ih => exact hfinish _ (hlist args ih)
  | call name args ih => exact hfinish _ (hlist args ih)
  | array items ih => exact hfinish _ (hlist items ih)
  | _ => exact hfinish _ (by simp [children])

/-! ### Passes without errors

A pass that records no error changed every part, and then the node, by a
successful step. -/

variable {step}

theorem finish_eq_iff {node : Mapped Expr} {t : Expr} :
    Mapped.finish step node = ⟨t, []⟩ ↔ node.errors = [] ∧ step node.result = .ok t := by
  cases hstep : step node.result with
  | ok e => simp [finish_of_ok hstep, and_comm]
  | error x => simp [finish_of_error hstep]

theorem bottomUp_group_iff {e t : Expr} : bottomUp step (.group e) = ⟨t, []⟩ ↔
    ∃ e', bottomUp step e = ⟨e', []⟩ ∧ step (.group e') = .ok t := by
  rcases he : bottomUp step e with ⟨e', errors⟩
  simp only [bottomUp, he, finish_eq_iff, Mapped.mk.injEq]
  grind

theorem bottomUp_binary_iff {op : String} {left right t : Expr} :
    bottomUp step (.binary op left right) = ⟨t, []⟩ ↔
      ∃ left' right', bottomUp step left = ⟨left', []⟩ ∧ bottomUp step right = ⟨right', []⟩ ∧
        step (.binary op left' right') = .ok t := by
  rcases hl : bottomUp step left with ⟨left', errors⟩
  rcases hr : bottomUp step right with ⟨right', errors'⟩
  simp only [bottomUp, hl, hr, finish_eq_iff, Mapped.mk.injEq, List.append_eq_nil_iff]
  grind

theorem bottomUpList_eq_iff {es ts : List Expr} : bottomUpList step es = ⟨ts, []⟩ ↔
    List.Forall₂ (fun e t => bottomUp step e = ⟨t, []⟩) es ts := by
  induction es generalizing ts with
  | nil => cases ts <;> simp [bottomUpList]
  | cons e es ih =>
      rcases he : bottomUp step e with ⟨e', errors⟩
      rcases hes : bottomUpList step es with ⟨es', errors'⟩
      cases ts with
      | nil => simp [bottomUpList]
      | cons t ts =>
          rw [List.forall₂_cons, ← ih]
          simp only [bottomUpList, he, hes, Mapped.mk.injEq, List.cons.injEq,
            List.append_eq_nil_iff]
          grind

theorem bottomUp_unary_iff {op : String} {args : List Expr} {t : Expr} :
    bottomUp step (.unary op args) = ⟨t, []⟩ ↔
      ∃ args', List.Forall₂ (fun e t => bottomUp step e = ⟨t, []⟩) args args' ∧
        step (.unary op args') = .ok t := by
  rcases hargs : bottomUpList step args with ⟨args', errors⟩
  simp only [bottomUp, ← bottomUpList_eq_iff, hargs, finish_eq_iff, Mapped.mk.injEq]
  grind

theorem bottomUp_call_iff {name : String} {args : List Expr} {t : Expr} :
    bottomUp step (.call name args) = ⟨t, []⟩ ↔
      ∃ args', List.Forall₂ (fun e t => bottomUp step e = ⟨t, []⟩) args args' ∧
        step (.call name args') = .ok t := by
  rcases hargs : bottomUpList step args with ⟨args', errors⟩
  simp only [bottomUp, ← bottomUpList_eq_iff, hargs, finish_eq_iff, Mapped.mk.injEq]
  grind

theorem bottomUp_array_iff {items : List Expr} {t : Expr} :
    bottomUp step (.array items) = ⟨t, []⟩ ↔
      ∃ items', List.Forall₂ (fun e t => bottomUp step e = ⟨t, []⟩) items items' ∧
        step (.array items') = .ok t := by
  rcases hitems : bottomUpList step items with ⟨items', errors⟩
  simp only [bottomUp, ← bottomUpList_eq_iff, hitems, finish_eq_iff, Mapped.mk.injEq]
  grind

theorem bottomUp_of_step_ok (hstep : ∀ e, step e = .ok e) (e : Expr) :
    bottomUp step e = ⟨e, []⟩ := by
  induction e with
  | group e ih => exact bottomUp_group_iff.mpr ⟨_, ih, hstep _⟩
  | binary op left right ihl ihr => exact bottomUp_binary_iff.mpr ⟨_, _, ihl, ihr, hstep _⟩
  | unary op args ih => exact bottomUp_unary_iff.mpr ⟨_, List.forall₂_same.mpr ih, hstep _⟩
  | call name args ih => exact bottomUp_call_iff.mpr ⟨_, List.forall₂_same.mpr ih, hstep _⟩
  | array items ih => exact bottomUp_array_iff.mpr ⟨_, List.forall₂_same.mpr ih, hstep _⟩
  | _ => exact finish_eq_iff.mpr ⟨rfl, hstep _⟩

end BottomUp

theorem nameFields_identity (e : Expr) : e.nameFields .identity = ⟨e, []⟩ :=
  bottomUp_of_step_ok (fun e => by cases e <;> rfl) e

/-! ## Sizes -/

theorem nodeCount_pos (e : Expr) : 0 < e.nodeCount := by
  cases e <;> simp only [Expr.nodeCount] <;> omega

theorem length_le_listNodeCount (es : List Expr) : es.length ≤ listNodeCount es := by
  induction es with
  | nil => exact Nat.zero_le _
  | cons e es ih =>
      have hpos := nodeCount_pos e
      simp only [Expr.listNodeCount, List.length_cons]
      omega

theorem nodeCount_le_of_mem {e : Expr} {es : List Expr} (h : e ∈ es) :
    e.nodeCount ≤ listNodeCount es := by
  induction h with
  | head es => exact Nat.le_add_right _ _
  | tail _ _ ih => exact Nat.le_trans ih (Nat.le_add_left _ _)

/-! ## Symbols -/

mutual

/-- The symbols of an expression from left to right; names of functions
are no symbols. -/
def symbols : Expr → List String
  | .const _ => []
  | .symbol name => [name]
  | .null => []
  | .group e => e.symbols
  | .binary _ left right => left.symbols ++ right.symbols
  | .unary _ args => listSymbols args
  | .call _ args => listSymbols args
  | .array items => listSymbols items
  | .fault _ => []

def listSymbols : List Expr → List String
  | [] => []
  | e :: es => e.symbols ++ listSymbols es

end

theorem listSymbols_eq_flatMap (es : List Expr) : listSymbols es = es.flatMap symbols := by
  induction es with
  | nil => rfl
  | cons e es ih => rw [listSymbols, ih, List.flatMap_cons]

/-! ## Constants -/

mutual

/-- The constants of an expression from left to right. -/
def consts : Expr → List Const
  | .const c => [c]
  | .symbol _ => []
  | .null => []
  | .group e => e.consts
  | .binary _ left right => left.consts ++ right.consts
  | .unary _ args => listConsts args
  | .call _ args => listConsts args
  | .array items => listConsts items
  | .fault _ => []

def listConsts : List Expr → List Const
  | [] => []
  | e :: es => e.consts ++ listConsts es

end

theorem mem_listConsts {c : Const} {es : List Expr} :
    c ∈ listConsts es ↔ ∃ e ∈ es, c ∈ e.consts := by
  induction es with
  | nil => simp [listConsts]
  | cons e es ih => simp [listConsts, ih]

end Expr

/-! ## The expression of a query -/

/-- A number is no string. -/
theorem Literal.evalNumber?_ne_string {raw : String} {c : Const} (h : evalNumber? raw = some c)
    (s : String) : c ≠ .string s := by
  unfold evalNumber? at h
  split at h
  · cases h
    simp
  · obtain ⟨x, -, rfl⟩ := Option.map_eq_some_iff.mp h
    simp

namespace SimpleQuery

variable {q : SimpleQuery} {categoryField : String}

/-- A query has the expression of its condition, a test of its category,
or both. -/
theorem expr?_cases {e : Expr} (h : q.expr? categoryField = some e) :
    (∃ c text, q.condition = some c ∧ q.category.text? = some text ∧
      e = .binary "and" c.expr (.binary "==" (.symbol categoryField) (.string text))) ∨
    (∃ c, q.condition = some c ∧ q.category.text? = none ∧ e = c.expr) ∨
    ∃ text, q.condition = none ∧ q.category.text? = some text ∧
      e = .binary "==" (.symbol categoryField) (.string text) := by
  obtain ⟨category, condition⟩ := q
  cases condition <;> cases htext : category.text? <;>
    simp_all [expr?, Category.expr?]

theorem expr?_eq_none_iff : q.expr? categoryField = none ↔
    q.condition = none ∧ q.category.text? = none := by
  obtain ⟨category, condition⟩ := q
  cases condition <;> cases htext : category.text? <;> simp [expr?, Category.expr?, htext]

end SimpleQuery

end EventQuery
