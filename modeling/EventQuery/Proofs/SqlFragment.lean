import EventQuery.Proofs.SoftErrors

/-!
# The SQL fragment

The type of expressions does not keep the names of the query language
apart from those of SQL, nor a list from a value. `Expr.SqlFragment` is the
small language that clauses are written in: the operators and functions of
SQL over the operands they take, a list only as the right side of a
membership test, and a null test wherever something is compared with a bare
null.

The clause of every query is in this language. A step of the dialect keeps
to it if the parts of its node do, with one exception: a list is no
expression of the language, but the parts of a lookup may be one. So the
induction is over the values and conditions of a query, where lists stand
in no other place, and a lookup is met with its operands
(`Dialect.lookup_sqlFragment`).
-/

namespace EventQuery

namespace Sql

/-- The operators between two expressions. -/
def valueOps : List String :=
  ["AND", "OR", "=", "<>", "<", ">", "<=", ">=", "+", "-", "*", "/", "%", "LIKE", "ILIKE"]

def equalities : List String := ["=", "<>"]

def nullTests : List String := ["IS", "IS NOT"]

def memberships : List String := ["IN", "NOT IN"]

/-- How many arguments a function takes; none for a name that is no
function of SQL. -/
def arity? : String → Option Arity
  | "concat" => some (.atLeast 1)
  | "endsWithUTF8" => some (.exactly 2)
  | "position" => some (.either 2 3)
  | "length" => some (.exactly 1)
  | "toFloat" => some (.exactly 1)
  | "startsWithUTF8" => some (.exactly 2)
  | "toString" => some (.exactly 1)
  | "hasSubsequence" => some (.exactly 2)
  | "substring" => some (.either 2 3)
  | "isIPAddressInRange" => some (.exactly 2)
  | "match" => some (.exactly 2)
  | "lower" => some (.exactly 1)
  | _ => none

end Sql

namespace Expr

/-- The expressions that a clause is made of. -/
inductive SqlFragment : Expr → Prop
  | const (c : Const) : SqlFragment (.const c)
  | symbol (name : String) : SqlFragment (.symbol name)
  | null : SqlFragment .null
  | fault (message : String) : SqlFragment (.fault message)
  | group {e : Expr} (h : SqlFragment e) : SqlFragment (.group e)
  | binary {op : String} {left right : Expr} (hop : op ∈ Sql.valueOps)
      (hnull : op ∈ Sql.equalities → right ≠ .null) (hl : SqlFragment left)
      (hr : SqlFragment right) : SqlFragment (.binary op left right)
  | nullTest {op : String} {left : Expr} (hop : op ∈ Sql.nullTests) (hl : SqlFragment left) :
      SqlFragment (.binary op left .null)
  | membership {op : String} {left : Expr} {items : List Expr} (hop : op ∈ Sql.memberships)
      (hl : SqlFragment left) (hne : items ≠ []) (hitems : ∀ e ∈ items, SqlFragment e) :
      SqlFragment (.binary op left (.array items))
  | not {e : Expr} (h : SqlFragment e) : SqlFragment (.unary "NOT" [e])
  | call {name : String} {args : List Expr} {arity : Arity} (hname : Sql.arity? name = some arity)
      (hcount : arity.accepts args.length = true) (hargs : ∀ e ∈ args, SqlFragment e) :
      SqlFragment (.call name args)

theorem SqlFragment.plain {op : String} {left right : Expr} (hop : op ∈ Sql.valueOps)
    (hother : op ∉ Sql.equalities) (hl : left.SqlFragment) (hr : right.SqlFragment) :
    (Expr.binary op left right).SqlFragment :=
  .binary hop (fun heq => absurd heq hother) hl hr

/-- A list by itself is no expression of the fragment. -/
theorem SqlFragment.operands_eq {e : Expr} (h : e.SqlFragment) : Dialect.operands e = [e] := by
  cases h <;> rfl

theorem orChain?_sqlFragment {t : Expr} {es : List Expr} (hes : ∀ e ∈ es, e.SqlFragment)
    (h : orChain? es = some t) : t.SqlFragment :=
  orChain?_induct (fun _ _ he hchain => .plain (by decide) (by decide) he hchain) hes h

/-- Where a step fails, a fault is left, and that is in the fragment. -/
theorem finish_sqlFragment {node : Mapped Expr}
    (h : ∀ t, Dialect.step node.result = .ok t → t.SqlFragment) :
    (Mapped.finish Dialect.step node).result.SqlFragment :=
  finish_result_induct .fault h

end Expr

/-! ## Steps of the dialect -/

namespace Dialect

open EventQuery.Expr

theorem lower_sqlFragment {e : Expr} (h : e.SqlFragment) : (lower e).SqlFragment :=
  .call rfl rfl (by simpa using h)

theorem lowerTwo_sqlFragment {args : List Expr} (h : ∀ e ∈ args, e.SqlFragment) :
    ∀ e ∈ lowerTwo args, e.SqlFragment := by
  match args with
  | [] => exact h
  | [a] =>
      rw [List.forall_mem_singleton] at h
      simpa [lowerTwo] using lower_sqlFragment h
  | a :: b :: rest =>
      obtain ⟨ha, hb, hrest⟩ : a.SqlFragment ∧ b.SqlFragment ∧ ∀ e ∈ rest, e.SqlFragment := by
        simpa using h
      simpa [lowerTwo] using ⟨lower_sqlFragment ha, lower_sqlFragment hb, hrest⟩

theorem likeOperand_sqlFragment {e : Expr} (h : e.SqlFragment) : (likeOperand e).SqlFragment := by
  unfold likeOperand
  split
  · exact .const _
  · exact h

theorem patternTest_sqlFragment {kind : LookupOp} {field pattern : Expr}
    (hfield : field.SqlFragment) (hpattern : pattern.SqlFragment) :
    (patternTest kind field pattern).SqlFragment := by
  cases kind with
  | like | colon | likeInsensitive =>
      exact .plain (by decide) (by decide) hfield (likeOperand_sqlFragment hpattern)
  | _ => exact .call rfl rfl (by simpa using ⟨hfield, hpattern⟩)

theorem negateIf_sqlFragment {negated : Bool} {e : Expr} (h : e.SqlFragment) :
    (negateIf negated e).SqlFragment := by
  cases negated with
  | false => exact h
  | true => exact .not h

theorem inOp_mem_memberships (negated : Bool) : inOp negated ∈ Sql.memberships := by
  cases negated <;> decide

/-- What compares two values that are not a bare null. -/
def comparator : CompareOp → String
  | .eq => "="
  | .notEq => "<>"
  | op => op.token

theorem plainOp?_compare (op : CompareOp) {right : Expr} (hnull : right ≠ .null) :
    plainOp? op.token right = some (comparator op) := by
  cases right with
  | null => exact absurd rfl hnull
  | _ => cases op <;> rfl

theorem compare_sqlFragment (op : CompareOp) {left right t : Expr} (hl : left.SqlFragment)
    (hr : right.SqlFragment) (h : binary op.token left right = .ok t) : t.SqlFragment := by
  by_cases hnull : right = .null
  · subst hnull
    cases op with
    | eq | notEq =>
        cases h
        exact .nullTest (by decide) hl
    | _ =>
        cases h
        exact .plain (by decide) (by decide) hl hr
  · rw [binary, plainOp?_compare op hnull] at h
    cases h
    exact .binary (by cases op <;> decide) (fun _ => hnull) hl hr

/-- The operators that SQL shares with the language of queries, and the
connectives. -/
theorem arith_sqlFragment {op : ArithOp} {left right : Expr} (hl : left.SqlFragment)
    (hr : right.SqlFragment) : (Expr.binary op.token left right).SqlFragment :=
  .plain (by cases op <;> decide) (by cases op <;> decide) hl hr

theorem logic_sqlFragment (op : LogicOp) {left right t : Expr} (hl : left.SqlFragment)
    (hr : right.SqlFragment) (h : binary op.token left right = .ok t) : t.SqlFragment := by
  cases op <;> cases h <;> exact .plain (by decide) (by decide) hl hr

/-- A lookup over operands in the fragment. That there is one keeps the
list of a membership test from being empty. -/
theorem lookup_sqlFragment {op : LookupOp} {negated : Bool} {left right t : Expr}
    (hl : left.SqlFragment) (hne : operands right ≠ [])
    (hoperands : ∀ e ∈ operands right, e.SqlFragment)
    (h : binary (op.name negated) left right = .ok t) : t.SqlFragment := by
  rw [binary_lookup] at h
  rcases lookup_cases h with rfl | ⟨items, rfl, rfl⟩ | ⟨kind, chain, hchain, rfl⟩
  · exact .membership (inOp_mem_memberships negated) hl hne hoperands
  · refine .membership (inOp_mem_memberships negated) (lower_sqlFragment hl)
      (mt List.map_eq_nil_iff.mp hne) ?_
    exact List.forall_mem_map.mpr fun e he => lower_sqlFragment (hoperands e he)
  · refine negateIf_sqlFragment (orChain?_sqlFragment (List.forall_mem_map.mpr ?_) hchain)
    exact fun e he => patternTest_sqlFragment hl (hoperands e he)

/-- A function that SQL knows under a name takes there what it takes in a
query. -/
theorem arity?_functionName? {f : Builtin} {name : String} (h : functionName? f = some name) :
    Sql.arity? name = some (arity f) := by
  cases f <;> cases h <;> rfl

theorem target_sqlFragment {f : Builtin} {args : List Expr} {t : Expr}
    (hcount : (arity f).accepts args.length = true) (hargs : ∀ e ∈ args, e.SqlFragment)
    (h : target? f args = some t) : t.SqlFragment := by
  rcases target_cases h with ⟨name, hname, rfl⟩ | ⟨op, left, right, -, rfl, rfl⟩ |
    ⟨address, ranges, -, rfl, hchain⟩
  · exact .call (arity?_functionName? hname) hcount hargs
  · obtain ⟨hl, hr⟩ : left.SqlFragment ∧ right.SqlFragment := by simpa using hargs
    exact arith_sqlFragment hl hr
  · obtain ⟨haddress, hranges⟩ := List.forall_mem_cons.mp hargs
    refine orChain?_sqlFragment (List.forall_mem_map.mpr fun range hrange => ?_) hchain
    exact .call rfl rfl (by simpa using ⟨haddress, hranges range hrange⟩)

theorem call_sqlFragment {name : String} {args : List Expr} {t : Expr}
    (hargs : ∀ e ∈ args, e.SqlFragment) (h : call name args = .ok t) : t.SqlFragment := by
  obtain ⟨f, insensitive, -, hcount, htarget⟩ := call_cases h
  cases insensitive with
  | false => exact target_sqlFragment hcount hargs htarget
  | true =>
      rw [← length_lowerTwo] at hcount
      exact target_sqlFragment hcount (lowerTwo_sqlFragment hargs) htarget

end Dialect

/-! ## Queries -/

section

variable (namer : Namer)

open EventQuery.Expr

theorem Expr.translated_symbol_sqlFragment (name : String) :
    ((Expr.symbol name).translated namer).result.SqlFragment := by
  rw [translated_symbol]
  cases namer name with
  | ok column => exact .symbol column
  | error e => exact .fault _

theorem Expr.translated_call_sqlFragment {name : String} {args : List Expr}
    (hargs : ∀ e ∈ args, (e.translated namer).result.SqlFragment) :
    ((Expr.call name args).translated namer).result.SqlFragment := by
  rw [translated_call]
  exact finish_sqlFragment fun t ht => Dialect.call_sqlFragment (List.forall_mem_map.mpr hargs) ht

theorem Expr.translated_not_sqlFragment {e : Expr} (h : (e.translated namer).result.SqlFragment) :
    ((Expr.unary "not" [e]).translated namer).result.SqlFragment := by
  rw [translated_unary]
  refine finish_sqlFragment fun t ht => ?_
  cases ht
  exact .not h

theorem Literal.expr_sqlFragment (l : Literal) : l.expr.SqlFragment := by
  cases l <;> exact .const _

theorem Value.translated_sqlFragment (v : Value) :
    (v.expr.translated namer).result.SqlFragment := by
  induction v with
  | null => exact .null
  | literal l =>
      rw [expr, l.translated_expr]
      exact l.expr_sqlFragment
  | field f => exact translated_symbol_sqlFragment namer f.name
  | call name args ih =>
      rw [expr, exprs_eq_map]
      exact translated_call_sqlFragment namer (List.forall_mem_map.mpr ih)
  | group v ih => exact .group ih
  | arith op left right ihl ihr =>
      rw [expr, translated_binary]
      refine finish_sqlFragment fun t ht => ?_
      obtain rfl : .binary op.token _ _ = t := by cases op <;> exact Except.ok.inj ht
      exact Dialect.arith_sqlFragment ihl ihr

theorem Value.translated_exprs_sqlFragment (vs : List Value) :
    ∀ e ∈ exprs vs, (e.translated namer).result.SqlFragment := by
  rw [exprs_eq_map]
  exact List.forall_mem_map.mpr fun v _ => v.translated_sqlFragment namer

/-- The operands of a lookup are in the fragment, and there is one. -/
theorem LookupTarget.operands_sqlFragment {target : LookupTarget} (h : target.WellFormed) :
    Dialect.operands (target.expr.translated namer).result ≠ [] ∧
      ∀ e ∈ Dialect.operands (target.expr.translated namer).result, e.SqlFragment := by
  cases target with
  | list items =>
      rw [translated_list]
      refine ⟨by simpa [Dialect.operands] using h.1, ?_⟩
      exact List.forall_mem_map.mpr fun l _ => l.expr_sqlFragment
  | value v =>
      have hv := v.translated_sqlFragment namer
      rw [expr, hv.operands_eq]
      exact ⟨List.cons_ne_nil _ _, by simpa using hv⟩

theorem Condition.translated_sqlFragment {c : Condition} (h : c.WellFormed) :
    (c.expr.translated namer).result.SqlFragment := by
  induction c with
  | boolean raw => exact .const _
  | not c ih => exact translated_not_sqlFragment namer (ih h.1)
  | group c ih => exact .group (ih h)
  | comparison op left right =>
      rw [expr, translated_binary]
      exact finish_sqlFragment fun t ht => Dialect.compare_sqlFragment op
        (left.translated_sqlFragment namer) (right.translated_sqlFragment namer) ht
  | lookup field negated op target =>
      obtain ⟨hne, hoperands⟩ := LookupTarget.operands_sqlFragment namer h.2
      rw [expr, translated_binary]
      exact finish_sqlFragment fun t ht => Dialect.lookup_sqlFragment
        (translated_symbol_sqlFragment namer field.name) hne hoperands ht
  | call name args =>
      exact translated_call_sqlFragment namer (Value.translated_exprs_sqlFragment namer args)
  | notCall name args =>
      exact translated_not_sqlFragment namer
        (translated_call_sqlFragment namer (Value.translated_exprs_sqlFragment namer args))
  | logical op left right ihl ihr =>
      rw [expr, translated_binary]
      exact finish_sqlFragment fun t ht => Dialect.logic_sqlFragment op (ihl h.1) (ihr h.2.1) ht

theorem Category.translated_sqlFragment (categoryField text : String) :
    ((Expr.binary "==" (.symbol categoryField) (.string text)).translated namer).result.SqlFragment
    := by
  rw [translated_binary]
  exact finish_sqlFragment fun t ht => Dialect.compare_sqlFragment .eq
    (translated_symbol_sqlFragment namer categoryField) (.const _) ht

theorem SimpleQuery.translated_sqlFragment {q : SimpleQuery} (h : q.WellFormed)
    {categoryField : String} {e : Expr} (he : q.expr? categoryField = some e) :
    (e.translated namer).result.SqlFragment := by
  rcases expr?_cases he with ⟨c, text, hc, -, rfl⟩ | ⟨c, hc, -, rfl⟩ | ⟨text, -, -, rfl⟩
  · rw [translated_binary]
    exact finish_sqlFragment fun t ht => Dialect.logic_sqlFragment .and
      (Condition.translated_sqlFragment namer (h.2 c hc))
      (Category.translated_sqlFragment namer categoryField text) ht
  · exact Condition.translated_sqlFragment namer (h.2 c hc)
  · exact Category.translated_sqlFragment namer categoryField text

end

/-! ## Extraction -/

namespace Expr

theorem extractList_length (taken : Nat) (es : List Expr) :
    (extractList taken es).1.length = es.length := by
  induction es generalizing taken with
  | nil => rfl
  | cons e es ih => simp only [extractList, List.length_cons, ih]

theorem extractList_sqlFragment {es : List Expr}
    (ih : ∀ e ∈ es, ∀ taken, (e.extract taken).1.SqlFragment) (taken : Nat) :
    ∀ e ∈ (extractList taken es).1, e.SqlFragment := by
  induction es generalizing taken with
  | nil => simp [extractList]
  | cons e es ihes =>
      obtain ⟨he, hes⟩ := List.forall_mem_cons.mp ih
      exact List.forall_mem_cons.mpr ⟨he taken, ihes hes _⟩

theorem extract_eq_null {e : Expr} {taken : Nat} (h : (e.extract taken).1 = .null) : e = .null := by
  cases e with
  | null => rfl
  | const c =>
      rw [extract] at h
      split at h <;> cases h
  | _ => cases h

/-- A symbol is in the fragment as well as the constant it stands for. -/
theorem SqlFragment.extract {e : Expr} (h : e.SqlFragment) (taken : Nat) :
    (e.extract taken).1.SqlFragment := by
  induction h generalizing taken with
  | const c =>
      rw [Expr.extract]
      split
      · exact .const c
      · exact .symbol _
  | symbol name => exact .symbol name
  | null => exact .null
  | fault message => exact .fault message
  | group _ ih => exact .group (ih taken)
  | binary hop hnull _ _ ihl ihr =>
      exact .binary hop (fun heq h => hnull heq (extract_eq_null h)) (ihl taken) (ihr _)
  | nullTest hop _ ih => exact .nullTest hop (ih taken)
  | @membership op left items hop _ hne _ ihl ihitems =>
      refine .membership hop (ihl taken) (fun hnil => hne ?_) (extractList_sqlFragment ihitems _)
      rw [← List.length_eq_zero_iff, ← extractList_length, hnil, List.length_nil]
  | not _ ih => exact .not (ih taken)
  | call hname hcount _ ih =>
      refine .call hname ?_ (extractList_sqlFragment ih taken)
      rwa [extractList_length]

theorem clause_sqlFragment_of_toSql {e : Expr} {o : Options}
    (h : (e.toSql o.namer).result.SqlFragment) : (e.clause o).tree.SqlFragment := by
  unfold clause
  cases o.extractParameters with
  | false => exact h
  | true => exact h.extract 0

/-! ## Names -/

mutual

/-- The names of the operators and functions of an expression. -/
def names : Expr → List String
  | .const _ => []
  | .symbol _ => []
  | .null => []
  | .group e => e.names
  | .binary op left right => op :: (left.names ++ right.names)
  | .unary op args => op :: listNames args
  | .call name args => name :: listNames args
  | .array items => listNames items
  | .fault _ => []

def listNames : List Expr → List String
  | [] => []
  | e :: es => e.names ++ listNames es

end

theorem mem_listNames {name : String} {es : List Expr} :
    name ∈ listNames es ↔ ∃ e ∈ es, name ∈ e.names := by
  induction es with
  | nil => simp [listNames]
  | cons e es ih => simp [listNames, ih]

end Expr

/-- The operators of the language of queries. -/
def queryOps : List String :=
  CompareOp.all.map CompareOp.token ++ LogicOp.all.map LogicOp.token ++
    [ArithOp.add, .subtract, .multiply, .divide, .modulo].map ArithOp.token ++
    LookupOp.all.flatMap (fun op => [op.name false, op.name true]) ++ ["not"]

/-- A name that marks no variant by `~` and is no operator of the language
of queries, unless SQL spells it alike. -/
def Sql.IsName (name : String) : Prop :=
  '~' ∉ name.toList ∧ (name ∈ queryOps → name ∈ Dialect.sharedOps)
deriving Decidable

theorem Sql.isName_of_op {op : String} (h : op ∈ valueOps ++ nullTests ++ memberships ++ ["NOT"]) :
    IsName op := by
  revert op
  decide

theorem Sql.isName_of_arity? {name : String} {arity : Arity} (h : arity? name = some arity) :
    IsName name := by
  unfold arity? at h
  split at h
  case h_13 => cases h
  all_goals decide

theorem Expr.SqlFragment.isName {e : Expr} (h : e.SqlFragment) :
    ∀ name ∈ e.names, Sql.IsName name := by
  have hlist : ∀ es : List Expr, (∀ e ∈ es, ∀ name ∈ e.names, Sql.IsName name) →
      ∀ name ∈ listNames es, Sql.IsName name := by
    intro es hes name hname
    obtain ⟨e, he, hname⟩ := mem_listNames.mp hname
    exact hes e he name hname
  induction h with
  | const c | symbol name | null | fault message => simp [names]
  | group _ ih => exact ih
  | binary hop _ _ _ ihl ihr =>
      exact List.forall_mem_cons.mpr
        ⟨Sql.isName_of_op (by simp [hop]), List.forall_mem_append.mpr ⟨ihl, ihr⟩⟩
  | nullTest hop _ ih =>
      exact List.forall_mem_cons.mpr
        ⟨Sql.isName_of_op (by simp [hop]), List.forall_mem_append.mpr ⟨ih, by simp [names]⟩⟩
  | membership hop _ _ _ ihl ihitems =>
      exact List.forall_mem_cons.mpr
        ⟨Sql.isName_of_op (by simp [hop]), List.forall_mem_append.mpr ⟨ihl, hlist _ ihitems⟩⟩
  | not _ ih =>
      exact List.forall_mem_cons.mpr ⟨by decide, hlist _ (List.forall_mem_singleton.mpr ih)⟩
  | call hname _ _ ih => exact List.forall_mem_cons.mpr ⟨Sql.isName_of_arity? hname, hlist _ ih⟩

/-! ## The headline theorem -/

/-- **Clauses stay in the SQL fragment.** Whatever the query, the field
that holds the category and the namer, the tree in columns and SQL
operators is in the fragment, and so is the tree that is written out, with
or without its constants. So nothing that is written has the name of a
variant or of an operator that only the language of queries knows, and
lists stand only on the right of a membership test. -/
theorem clause_sqlFragment {o : Options} {text : String} {e : Expr}
    (h : lowerText text o.categoryField = .ok (some e)) :
    (e.toSql o.namer).result.SqlFragment ∧ (e.clause o).tree.SqlFragment ∧
      ∀ name ∈ (e.clause o).tree.names, '~' ∉ name.toList ∧
        (name ∈ queryOps → name ∈ Dialect.sharedOps) := by
  obtain ⟨q, hparse, -, he⟩ := lowerText_eq_ok_iff.mp h
  have hq : q.WellFormed := (ofText_wellFormed (ofText_of_parse hparse)).body
  have hmapped : (e.toSql o.namer).result.SqlFragment := by
    rw [e.toSql_result]
    exact SimpleQuery.translated_sqlFragment _ hq he.symm
  have hclause := Expr.clause_sqlFragment_of_toSql hmapped
  exact ⟨hmapped, hclause, hclause.isName⟩

theorem clause_sqlFragment_lookups :
    ∃ e, lowerText
        "p where a not in~ (\"X\", 2) and (b not : (\"q*\", \"r?\") or indexOf~(c) != null)"
        "event.category" = .ok (some e) ∧
      (e.toSql (some .columnPath)).result.SqlFragment ∧
      (e.clause ⟨"event.category", some .columnPath, true⟩).tree.SqlFragment ∧
      ∀ name ∈ (e.clause ⟨"event.category", some .columnPath, true⟩).tree.names,
        '~' ∉ name.toList ∧ (name ∈ queryOps → name ∈ Dialect.sharedOps) :=
  have hparse : parse
      "p where a not in~ (\"X\", 2) and (b not : (\"q*\", \"r?\") or indexOf~(c) != null)" =
      .ok ⟨.simple ⟨.name "p", some (.logical .and
        (.lookup ⟨"a", false⟩ true .inListInsensitive (.list [.string "\"X\"", .number "2"]))
        (.group (.logical .or
          (.lookup ⟨"b", false⟩ true .colon (.list [.string "\"q*\"", .string "\"r?\""]))
          (.comparison .notEq (.call ⟨.indexOf, true⟩ [.field ⟨"c", false⟩]) .null))))⟩, []⟩ :=
    parse_of_finish rfl rfl
  have h : lowerText
      "p where a not in~ (\"X\", 2) and (b not : (\"q*\", \"r?\") or indexOf~(c) != null)"
      "event.category" = .ok (some (.binary "and" (.binary "and"
        (.binary "not in~" (.symbol "a") (.array [.string "X", .const (.int 2)]))
        (.group (.binary "or"
          (.binary "not :" (.symbol "b") (.array [.string "q*", .string "r?"]))
          (.binary "!=" (.call "indexOf~" [.symbol "c"]) .null))))
        (.binary "==" (.symbol "event.category") (.string "p")))) :=
    lowerText_eq_ok_iff.mpr ⟨_, hparse, rfl, rfl⟩
  ⟨_, h, clause_sqlFragment (o := ⟨"event.category", some .columnPath, true⟩) h⟩

end EventQuery
