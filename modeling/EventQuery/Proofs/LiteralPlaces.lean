import EventQuery.Proofs.CategoryTest
import EventQuery.Proofs.Contexts
import EventQuery.Proofs.PassOrder
import Mathlib.Data.Fintype.EquivFin

/-!
# Constants in a clause

Where does a literal of a query stand in its clause? To follow one, put in
its place a symbol that the query does not use, and the constant for the
symbol afterwards (`Expr.plug`). The dialect takes a number or a truth value
for nothing else than it takes a symbol for, so it does not matter when the
constant is put in (`Expr.toDialect_plug`), and unless it reports an error it
drops no symbol (`Expr.toDialect_keeps_symbols`).

So the clause of a query is made of pieces that depend on all of the query
but the literal, with the text of the constant between them
(`Condition.Context.whereClause_fill`).
-/

namespace EventQuery

namespace Expr

/-! ## A constant for a symbol -/

section Plug

variable (hole : String) (c : Const)

def plugStep : Expr → Except SoftError Expr
  | .symbol name => .ok (if name = hole then .const c else .symbol name)
  | e => .ok e

/-- The tree with a constant in place of a symbol. -/
def plug (e : Expr) : Expr := (e.bottomUp (plugStep hole c)).result

theorem plug_list (es : List Expr) :
    (bottomUpList (plugStep hole c) es).result = es.map (plug hole c) :=
  bottomUpList_result _ es

theorem plug_symbol (name : String) :
    plug hole c (.symbol name) = if name = hole then .const c else .symbol name := rfl

theorem plug_keepsOperations : KeepsOperations (plug hole c) where
  binary _ _ _ := rfl
  unary op args := congrArg (Expr.unary op) (plug_list hole c args)
  call name args := congrArg (Expr.call name) (plug_list hole c args)
  array items := congrArg Expr.array (plug_list hole c items)

variable {c}

/-- To the dialect a symbol and a constant that is no string are alike. -/
theorem plug_keepsKinds (hc : ∀ s, c ≠ .string s) : KeepsKinds (plug hole c) where
  toKeepsOperations := plug_keepsOperations hole c
  const _ := rfl
  kind e := by
    cases e with
    | const c => cases c <;> rfl
    | symbol name =>
        rw [plug_symbol]
        split
        · cases c with
          | string s => exact absurd rfl (hc s)
          | _ => rfl
        · rfl
    | _ => rfl

theorem toDialect_plug (hc : ∀ s, c ≠ .string s) (e : Expr) :
    (plug hole c e).toDialect = e.toDialect.under (plug hole c) := by
  refine toDialect_map (plug_keepsKinds hole hc) (fun _ => rfl) (fun _ => rfl) (fun name => ?_) e
  rw [plug_symbol]
  split <;> rfl

variable {hole}

theorem plug_of_not_mem {e : Expr} (h : hole ∉ e.symbols) : plug hole c e = e := by
  have hops := plug_keepsOperations hole c
  have hlist : ∀ es : List Expr, (∀ e ∈ es, hole ∉ e.symbols → plug hole c e = e) →
      hole ∉ listSymbols es → es.map (plug hole c) = es := fun es ih hes =>
    (List.map_congr_left fun e he => ih e he fun hmem =>
      hes (mem_listSymbols.mpr ⟨e, he, hmem⟩)).trans (List.map_id es)
  induction e with
  | symbol name => exact if_neg fun heq : name = hole => h (heq ▸ List.mem_singleton_self _)
  | group e ih => exact congrArg Expr.group (ih h)
  | binary op left right ihl ihr =>
      rw [hops.binary, ihl fun hmem => h (List.mem_append_left _ hmem),
        ihr fun hmem => h (List.mem_append_right _ hmem)]
  | unary op args ih => rw [hops.unary, hlist args ih h]
  | call name args ih => rw [hops.call, hlist args ih h]
  | array items ih => rw [hops.array, hlist items ih h]
  | _ => rfl

theorem plug_list_of_not_mem {es : List Expr} (h : hole ∉ listSymbols es) :
    es.map (plug hole c) = es :=
  (List.map_congr_left fun e he => plug_of_not_mem fun hmem =>
    h (mem_listSymbols.mpr ⟨e, he, hmem⟩)).trans (List.map_id es)

end Plug

/-! ## No symbol is lost -/

/-- A chain of tests that share some symbols has these and those of the
tested. -/
theorem symbols_subset_orChain? {shared : List String} {test : Expr → Expr}
    (htest : ∀ e, (test e).symbols = shared ++ e.symbols) {es : List Expr} {chain : Expr}
    (h : orChain? (es.map test) = some chain) : shared ++ listSymbols es ⊆ chain.symbols := by
  rw [orChain?_symbols h]
  intro s hs
  rcases List.mem_append.mp hs with hshared | hs
  · cases es with
    | nil => cases h
    | cons e es =>
        refine mem_listSymbols.mpr ⟨test e, List.mem_cons_self, ?_⟩
        rw [htest]
        exact List.mem_append_left _ hshared
  · obtain ⟨e, he, hs⟩ := mem_listSymbols.mp hs
    refine mem_listSymbols.mpr ⟨test e, List.mem_map_of_mem he, ?_⟩
    rw [htest]
    exact List.mem_append_right _ hs

end Expr

namespace Dialect

open EventQuery.Expr

theorem binary_keeps_symbols {op : String} {left right t : Expr}
    (h : binary op left right = .ok t) :
    left.symbols ++ right.symbols ⊆ t.symbols := by
  rcases binary_cases h with ⟨sqlOp, -, rfl⟩ | ⟨negated, rfl⟩ | ⟨negated, items, rfl, rfl⟩ |
    ⟨negated, kind, chain, rfl, hchain⟩
  · exact List.Subset.refl _
  · simp [symbols, operands_symbols]
  · simp [symbols, lower, listSymbols, lowerList_symbols]
  · rw [negateIf_symbols, ← operands_symbols right]
    exact symbols_subset_orChain? (patternTest_symbols kind left) hchain

theorem target_keeps_symbols {f : Builtin} {args : List Expr} {t : Expr}
    (h : target? f args = some t) : listSymbols args ⊆ t.symbols := by
  rcases target_cases h with ⟨name, -, rfl⟩ | ⟨op, left, right, -, rfl, rfl⟩ |
    ⟨address, ranges, -, rfl, hchain⟩
  · exact List.Subset.refl _
  · simp [symbols, listSymbols]
  · exact symbols_subset_orChain? (fun range => by simp [symbols, listSymbols]) hchain

theorem step_keeps_symbols {node t : Expr} (h : step node = .ok t) : node.symbols ⊆ t.symbols := by
  cases node with
  | binary op left right => exact binary_keeps_symbols h
  | unary op args =>
      obtain ⟨-, rfl⟩ := unary_cases h
      exact List.Subset.refl _
  | call name args =>
      obtain ⟨f, insensitive, -, -, htarget⟩ := call_cases h
      have hsub := target_keeps_symbols htarget
      cases insensitive with
      | false => exact hsub
      | true => rwa [if_pos rfl, lowerTwo_symbols] at hsub
  | _ =>
      cases h
      exact List.Subset.refl _

end Dialect

namespace Expr

/-- If no step drops a symbol, a pass without errors drops none. -/
theorem bottomUp_keeps_symbols {step : Expr → Except SoftError Expr}
    (hstep : ∀ node t, step node = .ok t → node.symbols ⊆ t.symbols) {e t : Expr}
    (h : bottomUp step e = ⟨t, []⟩) : e.symbols ⊆ t.symbols := by
  have happend : ∀ {a b a' b' : List String}, a ⊆ b → a' ⊆ b' → a ++ a' ⊆ b ++ b' := fun h h' =>
    List.append_subset.mpr
      ⟨List.subset_append_of_subset_left _ h, List.subset_append_of_subset_right _ h'⟩
  have hlist : ∀ {es ts : List Expr},
      (∀ e ∈ es, ∀ {t}, bottomUp step e = ⟨t, []⟩ → e.symbols ⊆ t.symbols) →
      List.Forall₂ (fun e t => bottomUp step e = ⟨t, []⟩) es ts →
      listSymbols es ⊆ listSymbols ts := by
    intro es ts ih hes
    induction hes with
    | nil => exact List.Subset.refl _
    | cons he _ ihs =>
        obtain ⟨ihe, ihes⟩ := List.forall_mem_cons.mp ih
        exact happend (ihe he) (ihs ihes)
  induction e generalizing t with
  | group e ih =>
      obtain ⟨e', he, ht⟩ := bottomUp_group_iff.mp h
      exact List.Subset.trans (ih he) (hstep (.group e') t ht)
  | binary op left right ihl ihr =>
      obtain ⟨left', right', hl, hr, ht⟩ := bottomUp_binary_iff.mp h
      exact List.Subset.trans (happend (ihl hl) (ihr hr)) (hstep _ _ ht)
  | unary op args ih =>
      obtain ⟨args', hargs, ht⟩ := bottomUp_unary_iff.mp h
      exact List.Subset.trans (hlist ih hargs) (hstep _ _ ht)
  | call name args ih =>
      obtain ⟨args', hargs, ht⟩ := bottomUp_call_iff.mp h
      exact List.Subset.trans (hlist ih hargs) (hstep _ _ ht)
  | array items ih =>
      obtain ⟨items', hitems, ht⟩ := bottomUp_array_iff.mp h
      exact List.Subset.trans (hlist ih hitems) (hstep _ _ ht)
  | _ => exact hstep _ _ (finish_eq_iff.mp h).2

theorem toDialect_keeps_symbols {e : Expr} (h : e.toDialect.errors = []) :
    e.symbols ⊆ e.toDialect.result.symbols :=
  bottomUp_keeps_symbols (fun _ _ => Dialect.step_keeps_symbols) (congrArg (Mapped.mk _) h)

end Expr

/-! ## Texts with places for a constant -/

/-- The text is made of fixed pieces, with that of the constant between each
two of them, so many times. -/
def HasPlaces (text : Const → String) (count : Nat) : Prop :=
  ∃ pieces : List String, pieces.length = count + 1 ∧ ∀ c, text c = c.sql.intercalate pieces

/-- Two lists of pieces make one: the last of the first and the first of the
second become one piece. -/
theorem exists_intercalate_append : ∀ xs ys : List String, xs ≠ [] → ys ≠ [] →
    ∃ zs : List String, zs.length + 1 = xs.length + ys.length ∧
      ∀ s : String, s.intercalate zs = s.intercalate xs ++ s.intercalate ys
  | [], _, hxs, _ => absurd rfl hxs
  | _, [], _, hys => absurd rfl hys
  | [x], y :: ys, _, _ => by
      refine ⟨(x ++ y) :: ys, by simp [Nat.add_comm], fun s => ?_⟩
      rw [String.intercalate_cons_append, String.intercalate_singleton]
  | x :: x' :: xs, y :: ys, _, hys => by
      obtain ⟨zs, hlength, hzs⟩ :=
        exists_intercalate_append (x' :: xs) (y :: ys) (List.cons_ne_nil _ _) hys
      have hne : zs ≠ [] := by
        rintro rfl
        simp only [List.length_nil, List.length_cons] at hlength
        omega
      refine ⟨x :: zs, by simp only [List.length_cons] at *; omega, fun s => ?_⟩
      rw [String.intercalate_cons_of_ne_nil hne, hzs, String.intercalate_cons_cons,
        String.append_assoc, String.append_assoc, String.append_assoc]

namespace HasPlaces

variable {text text' : Const → String} {count count' : Nat}

theorem fixed (s : String) : HasPlaces (fun _ => s) 0 :=
  ⟨[s], rfl, fun _ => String.intercalate_singleton.symm⟩

theorem here : HasPlaces Const.sql 1 := ⟨["", ""], rfl, fun c => by simp⟩

theorem append (h : HasPlaces text count) (h' : HasPlaces text' count') :
    HasPlaces (fun c => text c ++ text' c) (count + count') := by
  obtain ⟨pieces, hlength, htext⟩ := h
  obtain ⟨pieces', hlength', htext'⟩ := h'
  obtain ⟨joined, hjoined, hall⟩ := exists_intercalate_append _ _
    (List.ne_nil_of_length_eq_add_one hlength) (List.ne_nil_of_length_eq_add_one hlength')
  exact ⟨joined, by omega, fun c => by simp only [hall, htext, htext']⟩

theorem before (s : String) (h : HasPlaces text count) : HasPlaces (fun c => s ++ text c) count :=
  Nat.zero_add count ▸ (fixed s).append h

theorem after (h : HasPlaces text count) (s : String) : HasPlaces (fun c => text c ++ s) count :=
  h.append (fixed s)

end HasPlaces

namespace Expr

section

variable (hole : String) (namer : Namer)

/-- The text of a tree in columns has a place for each time that the symbol
stands in the tree. -/
theorem hasPlaces_sql (e : Expr) :
    HasPlaces (fun c => (inColumns namer (plug hole c e)).sql) (e.symbols.count hole) := by
  have hlist : ∀ es : List Expr,
      (∀ e ∈ es,
        HasPlaces (fun c => (inColumns namer (plug hole c e)).sql) (e.symbols.count hole)) →
      HasPlaces (fun c => listSql ((es.map (plug hole c)).map (inColumns namer)))
        ((listSymbols es).count hole) := by
    intro es
    induction es with
    | nil => exact fun _ => .fixed ""
    | cons e es ih =>
        intro hes
        obtain ⟨he, hes⟩ := List.forall_mem_cons.mp hes
        rw [listSymbols, List.count_append]
        cases es with
        | nil => exact he
        | cons e' es => exact (he.after ", ").append (ih hes)
  have hplug := plug_keepsOperations hole
  have hcolumns := inColumns_keepsKinds namer
  induction e with
  | const c => exact .fixed _
  | symbol name =>
      by_cases hname : name = hole
      · subst hname
        simp only [plug_symbol, if_true, symbols, List.count_singleton_self]
        exact .here
      · simp only [plug_symbol, if_neg hname, symbols,
          List.count_singleton, beq_eq_false_iff_ne.mpr hname]
        exact .fixed _
  | null => exact .fixed _
  | group e ih => exact (ih.before "(").after ")"
  | binary op left right ihl ihr =>
      rw [symbols, List.count_append]
      exact ((((((ihl.before "(").after " ").after op).after " ").append ihr).after ")")
  | unary op args ih =>
      simp only [hplug _ |>.unary, hcolumns.unary]
      exact ((hlist args ih).before ("(" ++ op ++ " ")).after ")"
  | call name args ih =>
      simp only [hplug _ |>.call, hcolumns.call]
      exact ((hlist args ih).before (name ++ "(")).after ")"
  | array items ih =>
      simp only [hplug _ |>.array, hcolumns.array]
      exact ((hlist items ih).before "(").after ")"
  | fault message => exact .fixed _

/-- The clause of a tree with a constant in it, from the tree with the symbol
in its place. -/
theorem translated_plug {c : Const} (hc : ∀ s, c ≠ .string s) (e : Expr) :
    (plug hole c e).translated namer =
      ⟨inColumns namer (plug hole c e.toDialect.result), e.toDialect.errors⟩ :=
  (toDialect_inColumns namer (plug hole c e)).trans
    (congrArg (Mapped.under (inColumns namer)) (toDialect_plug hole hc e))

end

end Expr

/-! ## Trees with an open place -/

namespace Value.Context

/-- The tree of a value, with `e` for the literal. -/
def expr (e : Expr) : Value.Context → Expr
  | here => e
  | call name before inner after =>
    .call name.text (before.map Value.expr ++ inner.expr e :: after.map Value.expr)
  | group inner => .group (inner.expr e)
  | arithLeft op inner right => .binary op.token (inner.expr e) right.expr
  | arithRight op left inner => .binary op.token left.expr (inner.expr e)

theorem expr_fill (l : Literal) (C : Value.Context) : (C.fill l).expr = C.expr l.expr := by
  induction C with
  | here => rfl
  | call name before inner after ih =>
      rw [fill, Value.expr, exprs_eq_map, List.map_append, List.map_cons, ih, expr]
  | group inner ih => exact congrArg Expr.group ih
  | arithLeft op inner right ih => exact congrArg (Expr.binary op.token · _) ih
  | arithRight op left inner ih => exact congrArg (Expr.binary op.token _) ih

end Value.Context

namespace Condition.Context

/-- The tree of a condition, with `e` for the literal. -/
def expr (e : Expr) : Condition.Context → Expr
  | not inner => .unary "not" [inner.expr e]
  | group inner => .group (inner.expr e)
  | comparisonLeft op inner right => .binary op.token (inner.expr e) right.expr
  | comparisonRight op left inner => .binary op.token left.expr (inner.expr e)
  | listItem field negated op before after =>
    .binary (op.name negated) field.expr
      (.array (before.map Literal.expr ++ e :: after.map Literal.expr))
  | lookupValue field negated op inner => .binary (op.name negated) field.expr (inner.expr e)
  | call name before inner after => (Value.Context.call name before inner after).expr e
  | notCall name before inner after =>
    .unary "not" [(Value.Context.call name before inner after).expr e]
  | logicalLeft op inner right => .binary op.token (inner.expr e) right.expr
  | logicalRight op left inner => .binary op.token left.expr (inner.expr e)

theorem expr_fill (l : Literal) (C : Condition.Context) : (C.fill l).expr = C.expr l.expr := by
  induction C with
  | not inner ih => rw [fill, Condition.expr, ih, expr]
  | group inner ih => rw [fill, Condition.expr, ih, expr]
  | comparisonLeft op inner right => rw [fill, Condition.expr, inner.expr_fill, expr]
  | comparisonRight op left inner => rw [fill, Condition.expr, inner.expr_fill, expr]
  | listItem field negated op before after =>
      rw [fill, Condition.expr, LookupTarget.expr, List.map_append, List.map_cons, expr]
  | lookupValue field negated op inner =>
      rw [fill, Condition.expr, LookupTarget.expr, inner.expr_fill, expr]
  | call name before inner after => exact Value.Context.expr_fill l (.call name before inner after)
  | notCall name before inner after =>
      exact congrArg (fun e => Expr.unary "not" [e])
        (Value.Context.expr_fill l (.call name before inner after))
  | logicalLeft op inner right ih => rw [fill, Condition.expr, ih, expr]
  | logicalRight op left inner ih => rw [fill, Condition.expr, ih, expr]

end Condition.Context

/-- The tree of a condition with that of a category beside it. -/
def Category.guard (category : Category) (categoryField : String) (e : Expr) : Expr :=
  match category.expr? categoryField with
  | some test => .binary "and" e test
  | none => e

theorem SimpleQuery.expr?_eq_guard (category : Category) (c : Condition) (categoryField : String) :
    SimpleQuery.expr? ⟨category, some c⟩ categoryField =
      some (category.guard categoryField c.expr) := by
  unfold SimpleQuery.expr? Category.guard
  cases category.expr? categoryField <;> rfl

/-! ## A symbol in the open place -/

namespace Expr

/-- The tree has the symbol, and with the constant for it is the other. -/
structure PlugsTo (hole : String) (c : Const) (e t : Expr) : Prop where
  result : e.plug hole c = t
  mem : hole ∈ e.symbols

namespace PlugsTo

variable {hole : String} {c : Const} {e t : Expr}

theorem symbol (hole : String) (c : Const) : PlugsTo hole c (.symbol hole) (.const c) :=
  ⟨if_pos rfl, List.mem_singleton_self _⟩

variable (h : PlugsTo hole c e t)
include h

theorem group : PlugsTo hole c (.group e) (.group t) := ⟨congrArg Expr.group h.result, h.mem⟩

theorem binaryLeft (op : String) {right : Expr} (hright : hole ∉ right.symbols) :
    PlugsTo hole c (.binary op e right) (.binary op t right) where
  result := by rw [(plug_keepsOperations hole c).binary, h.result, plug_of_not_mem hright]
  mem := List.mem_append_left _ h.mem

theorem binaryRight (op : String) {left : Expr} (hleft : hole ∉ left.symbols) :
    PlugsTo hole c (.binary op left e) (.binary op left t) where
  result := by rw [(plug_keepsOperations hole c).binary, h.result, plug_of_not_mem hleft]
  mem := List.mem_append_right _ h.mem

theorem not : PlugsTo hole c (.unary "not" [e]) (.unary "not" [t]) where
  result := by rw [(plug_keepsOperations hole c).unary, List.map_singleton, h.result]
  mem := List.mem_append_left _ h.mem

theorem list {before after : List Expr} (hbefore : hole ∉ listSymbols before)
    (hafter : hole ∉ listSymbols after) :
    (before ++ e :: after).map (plug hole c) = before ++ t :: after ∧
      hole ∈ listSymbols (before ++ e :: after) := by
  constructor
  · rw [List.map_append, List.map_cons, plug_list_of_not_mem hbefore, h.result,
      plug_list_of_not_mem hafter]
  · exact mem_listSymbols.mpr ⟨e, List.mem_append_right _ List.mem_cons_self, h.mem⟩

theorem call (name : String) {before after : List Expr} (hbefore : hole ∉ listSymbols before)
    (hafter : hole ∉ listSymbols after) :
    PlugsTo hole c (.call name (before ++ e :: after)) (.call name (before ++ t :: after)) where
  result := ((plug_keepsOperations hole c).call name _).trans
    (congrArg (Expr.call name) (h.list hbefore hafter).1)
  mem := (h.list hbefore hafter).2

theorem array {before after : List Expr} (hbefore : hole ∉ listSymbols before)
    (hafter : hole ∉ listSymbols after) :
    PlugsTo hole c (.array (before ++ e :: after)) (.array (before ++ t :: after)) where
  result := ((plug_keepsOperations hole c).array _).trans
    (congrArg Expr.array (h.list hbefore hafter).1)
  mem := (h.list hbefore hafter).2

end PlugsTo

theorem not_mem_symbols_append {hole : String} {s s' : List String} (h : hole ∉ s ++ s') :
    hole ∉ s ∧ hole ∉ s' := by
  rwa [List.mem_append, not_or] at h

theorem not_mem_listSymbols {hole : String} {before after : List Expr} {e : Expr}
    (h : hole ∉ listSymbols (before ++ e :: after)) :
    hole ∉ listSymbols before ∧ hole ∉ e.symbols ∧ hole ∉ listSymbols after := by
  rwa [listSymbols_eq_flatMap, List.flatMap_append, List.flatMap_cons, List.mem_append,
    List.mem_append, not_or, not_or, ← listSymbols_eq_flatMap, ← listSymbols_eq_flatMap] at h

end Expr

section Contexts

open EventQuery.Expr

variable {hole : String} (c : Const)

theorem Value.Context.plugsTo {C : Value.Context} (h : hole ∉ (C.expr .null).symbols) :
    PlugsTo hole c (C.expr (.symbol hole)) (C.expr (.const c)) := by
  induction C with
  | here => exact .symbol hole c
  | call name before inner after ih =>
      obtain ⟨hbefore, hinner, hafter⟩ := not_mem_listSymbols h
      exact (ih hinner).call name.text hbefore hafter
  | group inner ih => exact (ih h).group
  | arithLeft op inner right ih =>
      obtain ⟨hinner, hright⟩ := not_mem_symbols_append h
      exact (ih hinner).binaryLeft op.token hright
  | arithRight op left inner ih =>
      obtain ⟨hleft, hinner⟩ := not_mem_symbols_append h
      exact (ih hinner).binaryRight op.token hleft

theorem Condition.Context.plugsTo {C : Condition.Context} (h : hole ∉ (C.expr .null).symbols) :
    PlugsTo hole c (C.expr (.symbol hole)) (C.expr (.const c)) := by
  induction C with
  | not inner ih => exact (ih (not_mem_symbols_append h).1).not
  | group inner ih => exact (ih h).group
  | comparisonLeft op inner right =>
      obtain ⟨hinner, hright⟩ := not_mem_symbols_append h
      exact (Value.Context.plugsTo c hinner).binaryLeft op.token hright
  | comparisonRight op left inner =>
      obtain ⟨hleft, hinner⟩ := not_mem_symbols_append h
      exact (Value.Context.plugsTo c hinner).binaryRight op.token hleft
  | listItem field negated op before after =>
      obtain ⟨hfield, hlist⟩ := not_mem_symbols_append h
      obtain ⟨hbefore, -, hafter⟩ := not_mem_listSymbols hlist
      exact ((PlugsTo.symbol hole c).array hbefore hafter).binaryRight (op.name negated) hfield
  | lookupValue field negated op inner =>
      obtain ⟨hfield, hinner⟩ := not_mem_symbols_append h
      exact (Value.Context.plugsTo c hinner).binaryRight (op.name negated) hfield
  | call name before inner after => exact Value.Context.plugsTo c h
  | notCall name before inner after =>
      exact (Value.Context.plugsTo c (not_mem_symbols_append h).1).not
  | logicalLeft op inner right ih =>
      obtain ⟨hinner, hright⟩ := not_mem_symbols_append h
      exact (ih hinner).binaryLeft op.token hright
  | logicalRight op left inner ih =>
      obtain ⟨hleft, hinner⟩ := not_mem_symbols_append h
      exact (ih hinner).binaryRight op.token hleft

theorem Category.plugsTo_guard {category : Category} {categoryField : String}
    {C : Condition.Context} (h : hole ∉ (category.guard categoryField (C.expr .null)).symbols) :
    PlugsTo hole c (category.guard categoryField (C.expr (.symbol hole)))
      (category.guard categoryField (C.expr (.const c))) := by
  unfold Category.guard at *
  cases htest : category.expr? categoryField with
  | none =>
      rw [htest] at h
      exact Condition.Context.plugsTo c h
  | some test =>
      rw [htest] at h
      obtain ⟨hinner, htest⟩ := not_mem_symbols_append h
      exact (Condition.Context.plugsTo c hinner).binaryLeft "and" htest

end Contexts

/-- **A constant in its place.** The clause of a query is made of pieces with
the text of the constant between them, and the pieces are the same whatever
number or truth value stands in the place. If all of the query can be mapped,
the constant is written at least once. -/
theorem Condition.Context.whereClause_fill {o : Options} (ho : o.extractParameters = false)
    (category : Category) (C : Condition.Context) :
    ∃ pieces : List String, ∀ {l : Literal} {c : Const} {text : String} {f : Filter},
      l.expr = .const c → (∀ s, c ≠ .string s) →
      parse text = .ok ⟨.simple ⟨category, some (C.fill l)⟩, []⟩ → Filter.ofText o text = .ok f →
      f.whereClause = c.sql.intercalate pieces ∧ (f.errors = [] → 2 ≤ pieces.length) := by
  obtain ⟨hole, hfresh⟩ := Infinite.exists_notMem_finset
    (category.guard o.categoryField (C.expr .null)).symbols.toFinset
  have hplug : ∀ c, Expr.PlugsTo hole c _ _ := fun c =>
    Category.plugsTo_guard c (mt List.mem_toFinset.mpr hfresh)
  generalize category.guard o.categoryField (C.expr (.symbol hole)) = e at hplug
  obtain ⟨pieces, hlength, hpieces⟩ :=
    Expr.hasPlaces_sql hole (o.namer.getD .identity) e.toDialect.result
  refine ⟨pieces, fun {l c text f} hl hc hparse hfilter => ?_⟩
  obtain ⟨_, hclause, rfl⟩ := Filter.ofText_eq_ok_iff.mp hfilter
  obtain ⟨q, hread, -, rfl⟩ := clauseText_eq_ok_iff.mp hclause
  obtain rfl : ⟨category, some (C.fill l)⟩ = q := by
    rw [hparse] at hread
    cases hread
    rfl
  have hexpr : (⟨category, some (C.fill l)⟩ : SimpleQuery).expr? o.categoryField =
      some (e.plug hole c) := by
    rw [SimpleQuery.expr?_eq_guard, C.expr_fill, hl, (hplug c).result]
  rw [hexpr]
  show ((e.plug hole c).clause o).filter.whereClause = _ ∧
    (((e.plug hole c).clause o).filter.errors = [] → _)
  rw [Expr.clause_filter ho, Expr.translated_plug hole _ hc]
  refine ⟨hpieces c, fun herrors => ?_⟩
  have hmem := Expr.toDialect_keeps_symbols (List.append_eq_nil_iff.mp herrors).2 (hplug c).mem
  have hcount := List.count_pos_iff.mpr hmem
  omega

end EventQuery
