import EventQuery.Proofs.DialectSteps
import EventQuery.Proofs.Extraction
import EventQuery.Proofs.Symbols

/-!
# Names in a clause

Operators and functions are plain names in a tree. Whatever the tree was
before, after the dialect it holds only the names that the dialect itself
writes (`Expr.toDialect_sqlNames`): what it does not know has become a
fault. Extraction changes no such name, and the only symbols it adds are
placeholders.
-/

namespace EventQuery

namespace Sql

/-- The operators that a clause may hold. -/
def operators : List String :=
  Dialect.plainOps ++ ["IN", "NOT IN", "LIKE", "ILIKE"]

/-- The functions that a clause may call. -/
def functions : List String :=
  ["lower", "match", "isIPAddressInRange", "concat", "endsWithUTF8", "position", "length",
   "toFloat", "startsWithUTF8", "toString", "hasSubsequence", "substring"]

end Sql

namespace Expr

mutual

/-- Only operators and functions of SQL are named. -/
def SqlNames : Expr → Prop
  | .const _ => True
  | .symbol _ => True
  | .null => True
  | .group e => e.SqlNames
  | .binary op left right => op ∈ Sql.operators ∧ left.SqlNames ∧ right.SqlNames
  | .unary op args => op = "NOT" ∧ AllSqlNames args
  | .call name args => name ∈ Sql.functions ∧ AllSqlNames args
  | .array items => AllSqlNames items
  | .fault _ => True

def AllSqlNames : List Expr → Prop
  | [] => True
  | e :: es => e.SqlNames ∧ AllSqlNames es

end

theorem allSqlNames_iff {es : List Expr} : AllSqlNames es ↔ ∀ e ∈ es, e.SqlNames := by
  induction es with
  | nil => simp [AllSqlNames]
  | cons e es ih => simp [AllSqlNames, ih]

theorem orChain?_sqlNames {t : Expr} {es : List Expr} (hes : ∀ e ∈ es, e.SqlNames)
    (h : orChain? es = some t) : t.SqlNames :=
  orChain?_induct (fun _ _ he hchain => ⟨by decide, he, hchain⟩) hes h

end Expr

/-! ## Names through the dialect -/

namespace Dialect

open EventQuery.Expr

theorem lower_sqlNames {e : Expr} (h : e.SqlNames) : (lower e).SqlNames :=
  ⟨by decide, h, trivial⟩

theorem lowerTwo_sqlNames {args : List Expr} (h : ∀ e ∈ args, e.SqlNames) :
    ∀ e ∈ lowerTwo args, e.SqlNames := by
  match args with
  | [] => exact h
  | [a] =>
      rw [List.forall_mem_singleton] at h
      simpa [lowerTwo] using lower_sqlNames h
  | a :: b :: rest =>
      obtain ⟨ha, hb, hrest⟩ : a.SqlNames ∧ b.SqlNames ∧ ∀ e ∈ rest, e.SqlNames := by simpa using h
      simpa [lowerTwo] using ⟨lower_sqlNames ha, lower_sqlNames hb, hrest⟩

theorem operands_sqlNames {e : Expr} (h : e.SqlNames) :
    ∀ operand ∈ operands e, operand.SqlNames := by
  cases e with
  | array items => exact allSqlNames_iff.mp h
  | _ => simpa [operands] using h

theorem inOp_mem_operators (negated : Bool) : inOp negated ∈ Sql.operators := by
  cases negated <;> decide

theorem likeOperand_sqlNames {e : Expr} (h : e.SqlNames) : (likeOperand e).SqlNames := by
  unfold likeOperand
  split
  · trivial
  · exact h

theorem patternTest_sqlNames {kind : LookupOp} {field pattern : Expr} (hfield : field.SqlNames)
    (hpattern : pattern.SqlNames) : (patternTest kind field pattern).SqlNames := by
  cases kind with
  | like | colon | likeInsensitive =>
      exact ⟨by decide, hfield, likeOperand_sqlNames hpattern⟩
  | _ => exact ⟨by decide, hfield, hpattern, trivial⟩

theorem negateIf_sqlNames {negated : Bool} {e : Expr} (h : e.SqlNames) :
    (negateIf negated e).SqlNames := by
  cases negated with
  | false => exact h
  | true => exact ⟨rfl, h, trivial⟩

theorem binary_sqlNames {op : String} {left right t : Expr} (hl : left.SqlNames)
    (hr : right.SqlNames) (h : binary op left right = .ok t) : t.SqlNames := by
  rcases binary_cases h with ⟨sqlOp, hop, rfl⟩ | ⟨negated, rfl⟩ | ⟨negated, items, rfl, rfl⟩ |
    ⟨negated, kind, chain, rfl, hchain⟩
  · exact ⟨List.mem_append_left _ hop, hl, hr⟩
  · exact ⟨inOp_mem_operators negated, hl, allSqlNames_iff.mpr (operands_sqlNames hr)⟩
  · refine ⟨inOp_mem_operators negated, lower_sqlNames hl, allSqlNames_iff.mpr ?_⟩
    exact List.forall_mem_map.mpr fun e he => lower_sqlNames (allSqlNames_iff.mp hr e he)
  · refine negateIf_sqlNames (orChain?_sqlNames ?_ hchain)
    exact List.forall_mem_map.mpr fun e he => patternTest_sqlNames hl (operands_sqlNames hr e he)

theorem functionName?_mem_functions {f : Builtin} {name : String}
    (h : functionName? f = some name) :
    name ∈ Sql.functions := by
  cases f <;> cases h <;> decide

theorem target_sqlNames {f : Builtin} {args : List Expr} {t : Expr}
    (hargs : ∀ e ∈ args, e.SqlNames) (h : target? f args = some t) : t.SqlNames := by
  rcases target_cases h with ⟨name, hname, rfl⟩ | ⟨op, left, right, -, rfl, rfl⟩ |
    ⟨address, ranges, -, rfl, hchain⟩
  · exact ⟨functionName?_mem_functions hname, allSqlNames_iff.mpr hargs⟩
  · obtain ⟨hl, hr⟩ : left.SqlNames ∧ right.SqlNames := by simpa using hargs
    exact ⟨by cases op <;> decide, hl, hr⟩
  · obtain ⟨haddress, hranges⟩ := List.forall_mem_cons.mp hargs
    refine orChain?_sqlNames (List.forall_mem_map.mpr fun e he => ?_) hchain
    exact ⟨by decide, haddress, hranges e he, trivial⟩

theorem call_sqlNames {name : String} {args : List Expr} {t : Expr}
    (hargs : ∀ e ∈ args, e.SqlNames) (h : call name args = .ok t) : t.SqlNames := by
  obtain ⟨f, insensitive, -, -, htarget⟩ := call_cases h
  cases insensitive with
  | false => exact target_sqlNames hargs htarget
  | true => exact target_sqlNames (lowerTwo_sqlNames hargs) htarget

theorem step_sqlNames {node t : Expr} (hparts : ∀ e ∈ node.children, e.SqlNames)
    (h : step node = .ok t) : t.SqlNames := by
  cases node with
  | binary op left right =>
      obtain ⟨hl, hr⟩ : left.SqlNames ∧ right.SqlNames := by simpa [children] using hparts
      exact binary_sqlNames hl hr h
  | unary op args =>
      obtain ⟨-, rfl⟩ := unary_cases h
      exact ⟨rfl, allSqlNames_iff.mpr hparts⟩
  | call name args => exact call_sqlNames hparts h
  | group e =>
      cases h
      exact hparts e List.mem_cons_self
  | array items =>
      cases h
      exact allSqlNames_iff.mpr hparts
  | _ =>
      cases h
      trivial

end Dialect

namespace Expr

/-- After the dialect only its own names are left. -/
theorem toDialect_sqlNames (e : Expr) : e.toDialect.result.SqlNames :=
  bottomUp_result_induct _ (fun _ => trivial) (fun _ _ => Dialect.step_sqlNames) e

theorem toSql_sqlNames (e : Expr) (namer : Option Namer) : (e.toSql namer).result.SqlNames := by
  cases namer with
  | none => exact e.toDialect_sqlNames
  | some n => exact toDialect_sqlNames _

/-! ## Names through extraction -/

theorem extractList_sqlNames {es : List Expr}
    (ih : ∀ e ∈ es, ∀ taken, e.SqlNames → (e.extract taken).1.SqlNames) (taken : Nat)
    (h : AllSqlNames es) : AllSqlNames (extractList taken es).1 := by
  induction es generalizing taken with
  | nil => trivial
  | cons e es ihes =>
      exact ⟨ih e List.mem_cons_self taken h.1,
        ihes (fun e he => ih e (List.mem_cons_of_mem _ he)) _ h.2⟩

theorem extract_sqlNames {e : Expr} (taken : Nat) (h : e.SqlNames) :
    (e.extract taken).1.SqlNames := by
  induction e generalizing taken with
  | const c =>
      rw [extract]
      split <;> trivial
  | group e ih => exact ih taken h
  | binary op left right ihl ihr => exact ⟨h.1, ihl _ h.2.1, ihr _ h.2.2⟩
  | unary op args ih => exact ⟨h.1, extractList_sqlNames ih taken h.2⟩
  | call name args ih => exact ⟨h.1, extractList_sqlNames ih taken h.2⟩
  | array items ih => exact extractList_sqlNames ih taken h
  | _ => trivial

theorem extractList_symbols {es : List Expr}
    (ih : ∀ e ∈ es, ∀ taken, ∀ s ∈ (e.extract taken).1.symbols,
      s ∈ e.symbols ∨ ∃ n c, s = placeholder n c) (taken : Nat) :
    ∀ s ∈ listSymbols (extractList taken es).1,
      s ∈ listSymbols es ∨ ∃ n c, s = placeholder n c := by
  induction es generalizing taken with
  | nil => intro s hs; cases hs
  | cons e es ihes =>
      intro s hs
      simp only [extractList, listSymbols, List.mem_append] at hs ⊢
      rcases hs with hs | hs
      · exact (ih e List.mem_cons_self taken s hs).imp_left .inl
      · exact (ihes (fun e he => ih e (List.mem_cons_of_mem _ he)) _ s hs).imp_left .inr

/-- Extraction adds no symbols but placeholders. -/
theorem extract_symbols {e : Expr} (taken : Nat) :
    ∀ s ∈ (e.extract taken).1.symbols, s ∈ e.symbols ∨ ∃ n c, s = placeholder n c := by
  induction e generalizing taken with
  | const c =>
      rw [extract]
      split
      · exact fun s hs => .inl hs
      · intro s hs
        exact .inr ⟨_, _, List.mem_singleton.mp hs⟩
  | group e ih => exact ih taken
  | binary op left right ihl ihr =>
      intro s hs
      simp only [extract, symbols, List.mem_append] at hs ⊢
      rcases hs with hs | hs
      · exact (ihl _ s hs).imp_left .inl
      · exact (ihr _ s hs).imp_left .inr
  | unary op args ih => exact extractList_symbols ih taken
  | call name args ih => exact extractList_symbols ih taken
  | array items ih => exact extractList_symbols ih taken
  | _ => exact fun s hs => .inl hs

end Expr

end EventQuery
