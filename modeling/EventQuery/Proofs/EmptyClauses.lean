import EventQuery.Proofs.FilterStages

/-!
# Empty clauses

An empty clause says that every event matches, and a statement with such a
clause has no WHERE. So no condition may ever come out as the empty text,
whatever names a namer gives.

The only expression with an empty text is a symbol with an empty name. The
expression of a condition is none: it is a test (`Expr.isTest`), that is a
truth value, or something with an operator, a function or parentheses at its
root. All passes keep tests tests (`Expr.bottomUp_isTest`, `Expr.extract_isTest`),
and the text of a test is not empty (`Expr.sql_ne_empty`). Hence a clause is
empty exactly if there was nothing to test (`whereClause_eq_empty_iff`).
-/

namespace EventQuery

open Dialect

/-! ## Tests -/

namespace Expr

/-- What can stand at the root of the expression of a condition. -/
def isTest : Expr → Bool
  | .const c => c.isBool
  | .group _ | .binary .. | .unary .. | .call .. | .fault _ => true
  | .symbol _ | .null | .array _ => false

theorem append_paren_ne_empty (text : String) : text ++ ")" ≠ "" := by
  simp

/-- The text of a test is a truth value or ends in a parenthesis. -/
theorem sql_ne_empty {e : Expr} (h : e.isTest = true) : e.sql ≠ "" := by
  cases e with
  | const c =>
      cases c with
      | bool b => cases b <;> decide
      | _ => cases h
  | group | binary | unary | call | fault => exact append_paren_ne_empty _
  | symbol | null | array => cases h

/-- A pass whose steps make tests of tests makes tests of tests. -/
theorem bottomUp_isTest {step : Expr → Except SoftError Expr}
    (hstep : ∀ {e t : Expr}, e.isTest = true → step e = .ok t → t.isTest = true) {e : Expr}
    (h : e.isTest = true) : (e.bottomUp step).result.isTest = true := by
  have hfinish : ∀ node : Mapped Expr, node.result.isTest = true →
      (Mapped.finish step node).result.isTest = true := fun _ hnode =>
    finish_result_induct (P := (·.isTest = true)) (fun _ => rfl) fun _ ht => hstep hnode ht
  cases e with
  | const c => exact hfinish _ h
  | group | binary | unary | call | fault => exact hfinish _ rfl
  | symbol | null | array => cases h

theorem nameFieldStep_isTest {namer : Namer} {e t : Expr} (h : e.isTest = true)
    (ht : nameFieldStep namer e = .ok t) : t.isTest = true := by
  cases e with
  | symbol name => cases h
  | _ =>
      obtain rfl := Except.ok.inj ht
      exact h

theorem isTest_of_isCompound {e : Expr} (h : e.isCompound = true) : e.isTest = true := by
  cases e with
  | binary | unary | call => rfl
  | _ => cases h

theorem step_isTest {e t : Expr} (h : e.isTest = true) (ht : Dialect.step e = .ok t) :
    t.isTest = true := by
  cases e with
  | binary | unary | call => exact isTest_of_isCompound (step_isCompound rfl ht)
  | _ =>
      obtain rfl := Except.ok.inj ht
      exact h

theorem extract_isTest {e : Expr} (h : e.isTest = true) (taken : Nat) :
    (e.extract taken).1.isTest = true := by
  cases e with
  | const c =>
      have hbool : c.isBool = true := h
      rw [extract, if_pos hbool]
      exact h
  | group | binary | unary | call | fault => rfl
  | symbol | null | array => cases h

theorem toSql_isTest {e : Expr} (h : e.isTest = true) (namer : Option Namer) :
    (e.toSql namer).result.isTest = true := by
  cases namer with
  | none => exact bottomUp_isTest step_isTest h
  | some namer => exact bottomUp_isTest step_isTest (bottomUp_isTest nameFieldStep_isTest h)

theorem clause_isTest {e : Expr} (h : e.isTest = true) (o : Options) :
    (e.clause o).tree.isTest = true := by
  unfold clause
  cases o.extractParameters with
  | true => exact extract_isTest (toSql_isTest h o.namer) 0
  | false => exact toSql_isTest h o.namer

end Expr

theorem Condition.expr_isTest (c : Condition) : c.expr.isTest = true := by
  cases c <;> rfl

theorem SimpleQuery.expr?_isTest {q : SimpleQuery} {categoryField : String} {e : Expr}
    (h : q.expr? categoryField = some e) : e.isTest = true := by
  rcases SimpleQuery.expr?_cases h with ⟨c, text, -, -, rfl⟩ | ⟨c, -, -, rfl⟩ | ⟨text, -, -, rfl⟩
  · rfl
  · exact c.expr_isTest
  · rfl

/-! ## Queries that match everything -/

/-- No condition, and every category or the empty one asked for. -/
def SimpleQuery.MatchesAll (q : SimpleQuery) : Prop :=
  q.condition = none ∧
    (q.category = .any ∨ ∃ raw, q.category = .quoted raw ∧ Literal.evalString raw = "")

theorem Category.text?_eq_none_iff {k : Category} (h : k.WellFormed) :
    k.text? = none ↔ k = .any ∨ ∃ raw, k = .quoted raw ∧ Literal.evalString raw = "" := by
  cases k with
  | any => simp [text?]
  | name text =>
      -- a word has a first character
      have hne : text ≠ "" := by
        rintro rfl
        exact h.word
      simp [text?, hne]
  | quoted raw => simp [text?]

theorem SimpleQuery.expr?_eq_none_iff_matchesAll {q : SimpleQuery} (h : q.WellFormed)
    (categoryField : String) : q.expr? categoryField = none ↔ q.MatchesAll := by
  rw [SimpleQuery.expr?_eq_none_iff, Category.text?_eq_none_iff h.1, MatchesAll]

theorem Filter.whereClause_ofClause?_eq_empty_iff {e? : Option Expr}
    (h : ∀ e, e? = some e → e.isTest = true) (o : Options) :
    (Filter.ofClause? (e?.map fun e => e.clause o)).whereClause = "" ↔ e? = none := by
  cases e? with
  | none => exact iff_of_true rfl rfl
  | some e => exact iff_of_false (Expr.sql_ne_empty (Expr.clause_isTest (h e rfl) o)) nofun

/-! ## The headline theorem -/

theorem Filter.select_eq (f : Filter) (table : String) :
    f.select table = "SELECT * FROM " ++ table ++
      (if f.whereClause = "" then "" else " WHERE " ++ f.whereClause) := by
  unfold Filter.select
  by_cases h : f.whereClause = "" <;> simp [h]

theorem Filter.select_eq_iff (f : Filter) (table : String) :
    f.select table = "SELECT * FROM " ++ table ↔ f.whereClause = "" := by
  rw [select_eq]
  by_cases h : f.whereClause = "" <;> simp [h]

/-- **Empty clauses.** The clause of a filter is empty if and only if the
query has no condition and asks for every category, or for the one with the
empty name. These are the queries whose statement has no WHERE, and their
filters have no parameters and no errors. -/
theorem whereClause_eq_empty_iff {o : Options} {text : String} {f : Filter}
    (h : Filter.ofText o text = .ok f) :
    ∃ q : SimpleQuery, parse text = .ok ⟨.simple q, []⟩ ∧
      (f.whereClause = "" ↔ q.MatchesAll) ∧
      (∀ table, f.select table = "SELECT * FROM " ++ table ↔ q.MatchesAll) ∧
      (¬ q.MatchesAll → ∀ table,
        f.select table = "SELECT * FROM " ++ table ++ " WHERE " ++ f.whereClause) ∧
      (q.MatchesAll → f.parameters = [] ∧ f.errors = []) := by
  obtain ⟨c?, hclause, rfl⟩ := Filter.ofText_eq_ok_iff.mp h
  obtain ⟨q, hparse, -, rfl⟩ := clauseText_eq_ok_iff.mp hclause
  have hq : q.WellFormed := (ofText_wellFormed (ofText_of_parse hparse)).body
  have hall := SimpleQuery.expr?_eq_none_iff_matchesAll hq o.categoryField
  have hempty := (Filter.whereClause_ofClause?_eq_empty_iff
    (fun e he => SimpleQuery.expr?_isTest he) o).trans hall
  refine ⟨q, hparse, hempty, fun table => (Filter.select_eq_iff _ table).trans hempty,
    fun hsome table => ?_, fun hnone => ?_⟩
  · rw [Filter.select_eq, if_neg (mt hempty.mp hsome), ← String.append_assoc]
  · rw [hall.mpr hnone]
    exact ⟨rfl, rfl⟩

/-- With a namer that gives every field the empty name: an empty category,
and a comparison of two fields. -/
theorem whereClause_eq_empty_iff_unnamed :
    let o : Options := ⟨"c", some fun _ => .ok "", true⟩
    (∃ f q, Filter.ofText o "\"\"" = .ok f ∧ parse "\"\"" = .ok ⟨.simple q, []⟩ ∧
      q.MatchesAll ∧ ∀ table, f.select table = "SELECT * FROM " ++ table) ∧
    ∃ f q, Filter.ofText o "any where a == b" = .ok f ∧
      parse "any where a == b" = .ok ⟨.simple q, []⟩ ∧
      ¬ q.MatchesAll ∧
      ∀ table, f.select table = "SELECT * FROM " ++ table ++ " WHERE " ++ "( = )" := by
  intro o
  have hcategory : parse "\"\"" = .ok ⟨.simple ⟨.quoted "\"\"", none⟩, []⟩ :=
    parse_of_finish rfl rfl
  have hequation : parse "any where a == b" = .ok ⟨.simple ⟨.any, some (.comparison .eq
      (.field ⟨"a", false⟩) (.field ⟨"b", false⟩))⟩, []⟩ := parse_of_finish rfl rfl
  have hempty : Filter.ofText o "\"\"" = .ok .everything := Filter.ofText_of_parse hcategory rfl
  have htest : Filter.ofText o "any where a == b" = .ok ⟨"( = )", [], []⟩ :=
    Filter.ofText_of_parse hequation rfl
  obtain ⟨q, hparse, hiff, hselect, -⟩ := whereClause_eq_empty_iff hempty
  obtain ⟨q', hparse', hiff', -, hselect', -⟩ := whereClause_eq_empty_iff htest
  have hall : q.MatchesAll := hiff.mp rfl
  have hsome : ¬ q'.MatchesAll := fun h => absurd (hiff'.mpr h) (by decide)
  exact ⟨⟨_, q, hempty, hparse, hall, fun table => (hselect table).mpr hall⟩,
    ⟨_, q', htest, hparse', hsome, hselect' hsome⟩⟩

end EventQuery
