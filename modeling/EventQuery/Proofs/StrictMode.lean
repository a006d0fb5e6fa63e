import EventQuery.Proofs.FilterStages

/-!
# Strict filters are those without faults

A pass replaces a node that it cannot map by a fault and records the
error. Later nodes copy such a fault, or drop it together with the rest of
a node that fails in its turn, so the errors and the faults of a tree need
not match one by one. What holds throughout is `Accounted`: every fault
has a recorded message, and once an error was recorded there is a fault.

A step that succeeds keeps the messages of the faults below it, neither
losing one nor making one up (`KeepsFaults`); this is the only fact about
the steps that is used. A step that fails leaves exactly one fault.
-/

namespace EventQuery

namespace Expr

/-! ## Faults of a tree -/

mutual

/-- The messages of the faults in an expression from left to right. -/
def faultMessages : Expr → List String
  | .const _ => []
  | .symbol _ => []
  | .null => []
  | .group e => e.faultMessages
  | .binary _ left right => left.faultMessages ++ right.faultMessages
  | .unary _ args => listFaultMessages args
  | .call _ args => listFaultMessages args
  | .array items => listFaultMessages items
  | .fault message => [message]

def listFaultMessages : List Expr → List String
  | [] => []
  | e :: es => e.faultMessages ++ listFaultMessages es

end

theorem listFaultMessages_eq_flatMap (es : List Expr) :
    listFaultMessages es = es.flatMap faultMessages := by
  induction es with
  | nil => rfl
  | cons e es ih => rw [listFaultMessages, ih, List.flatMap_cons]

theorem mem_listFaultMessages {m : String} {es : List Expr} :
    m ∈ listFaultMessages es ↔ ∃ e ∈ es, m ∈ e.faultMessages := by
  rw [listFaultMessages_eq_flatMap, List.mem_flatMap]

theorem listFaultMessages_one (e : Expr) : listFaultMessages [e] = e.faultMessages :=
  List.append_nil _

theorem listFaultMessages_two (e e' : Expr) :
    listFaultMessages [e, e'] = e.faultMessages ++ e'.faultMessages :=
  congrArg (e.faultMessages ++ ·) (listFaultMessages_one e')

/-- A step that keeps the messages below a node, if it succeeds. -/
def KeepsFaults (step : Expr → Except SoftError Expr) : Prop :=
  ∀ node t, step node = .ok t → ∀ m, m ∈ t.faultMessages ↔ m ∈ node.faultMessages

theorem nameFieldStep_keepsFaults (namer : Namer) : KeepsFaults (nameFieldStep namer) := by
  intro node t h m
  cases node with
  | symbol name =>
      rw [nameFieldStep] at h
      split at h <;> cases h
      exact Iff.rfl
  | _ =>
      cases h
      rfl

theorem orChain?_faultMessages : ∀ {es : List Expr} {e : Expr}, orChain? es = some e →
    e.faultMessages = listFaultMessages es
  | [], _, h => by cases h
  | [_], _, h => by
      cases h
      exact (listFaultMessages_one _).symm
  | e₁ :: e₂ :: es, _, h => by
      rw [orChain?_cons_cons] at h
      obtain ⟨tail, htail, rfl⟩ := Option.map_eq_some_iff.mp h
      exact congrArg (e₁.faultMessages ++ ·) (orChain?_faultMessages htail)

/-- A chain over some operands that repeats one more operand in each
link. -/
theorem orChain?_map_faultMessages {first e : Expr} {es : List Expr} {link : Expr → Expr}
    (hlink : ∀ e, (link e).faultMessages = first.faultMessages ++ e.faultMessages)
    (h : orChain? (es.map link) = some e) (m : String) :
    m ∈ e.faultMessages ↔ m ∈ first.faultMessages ∨ m ∈ listFaultMessages es := by
  -- there is a link, so the repeated operand is in the chain
  have hne : es ≠ [] := by
    rintro rfl
    cases h
  obtain ⟨e₀, he₀⟩ := List.exists_mem_of_ne_nil es hne
  simp only [orChain?_faultMessages h, mem_listFaultMessages, List.mem_map,
    exists_exists_and_eq_and, hlink, List.mem_append]
  constructor
  · rintro ⟨e, he, hm | hm⟩
    · exact .inl hm
    · exact .inr ⟨e, he, hm⟩
  · rintro (hm | ⟨e, he, hm⟩)
    · exact ⟨e₀, he₀, .inl hm⟩
    · exact ⟨e, he, .inr hm⟩

end Expr

/-! ## The dialect keeps faults -/

namespace Dialect

open EventQuery.Expr

theorem likeOperand_faultMessages (e : Expr) : (likeOperand e).faultMessages = e.faultMessages := by
  unfold likeOperand
  split
  · exact Eq.refl ([] : List String)
  · rfl

theorem negateIf_faultMessages (negated : Bool) (e : Expr) :
    (negateIf negated e).faultMessages = e.faultMessages := by
  cases negated with
  | false => rfl
  | true => exact listFaultMessages_one e

theorem lower_faultMessages (e : Expr) : (lower e).faultMessages = e.faultMessages :=
  listFaultMessages_one e

theorem lowerList_faultMessages (es : List Expr) :
    listFaultMessages (es.map lower) = listFaultMessages es := by
  rw [listFaultMessages_eq_flatMap, listFaultMessages_eq_flatMap, List.flatMap_map]
  exact List.flatMap_congr fun e _ => lower_faultMessages e

theorem lowerTwo_faultMessages (args : List Expr) :
    listFaultMessages (lowerTwo args) = listFaultMessages args := by
  match args with
  | [] => rfl
  | [e] => exact congrArg (· ++ []) (lower_faultMessages e)
  | e :: e' :: es =>
      change (lower e).faultMessages ++ ((lower e').faultMessages ++ listFaultMessages es) = _
      rw [lower_faultMessages, lower_faultMessages]
      rfl

theorem operands_faultMessages (e : Expr) :
    listFaultMessages (operands e) = e.faultMessages := by
  cases e with
  | array items => rfl
  | _ => exact List.append_nil _

theorem patternTest_faultMessages (kind : LookupOp) (field pattern : Expr) :
    (patternTest kind field pattern).faultMessages
      = field.faultMessages ++ pattern.faultMessages := by
  have hlike : field.faultMessages ++ (likeOperand pattern).faultMessages
      = field.faultMessages ++ pattern.faultMessages := by
    rw [likeOperand_faultMessages]
  cases kind with
  | like | colon | likeInsensitive => exact hlike
  | _ => exact listFaultMessages_two field pattern

theorem binary_faultMessages {op : String} {left right t : Expr} (h : binary op left right = .ok t)
    (m : String) : m ∈ t.faultMessages ↔ m ∈ left.faultMessages ∨ m ∈ right.faultMessages := by
  rcases binary_cases h with ⟨sqlOp, -, rfl⟩ | ⟨negated, rfl⟩ | ⟨negated, items, rfl, rfl⟩ |
    ⟨negated, kind, chain, rfl, hchain⟩
  · exact List.mem_append
  · change m ∈ left.faultMessages ++ listFaultMessages (operands right) ↔ _
    rw [operands_faultMessages, List.mem_append]
  · change m ∈ (lower left).faultMessages ++ listFaultMessages (items.map lower) ↔ _
    rw [lower_faultMessages, lowerList_faultMessages]
    exact List.mem_append
  · rw [negateIf_faultMessages,
      orChain?_map_faultMessages (patternTest_faultMessages kind left) hchain,
      operands_faultMessages]

theorem target_faultMessages {f : Builtin} {args : List Expr} {t : Expr}
    (h : target? f args = some t) (m : String) :
    m ∈ t.faultMessages ↔ m ∈ listFaultMessages args := by
  rcases target_cases h with ⟨name, -, rfl⟩ | ⟨op, left, right, -, rfl, rfl⟩ |
    ⟨address, ranges, rfl, rfl, hchain⟩
  · rfl
  · exact iff_of_eq (congrArg (m ∈ ·) (listFaultMessages_two left right).symm)
  · have hlink : ∀ range, (Expr.call "isIPAddressInRange" [address, range]).faultMessages
        = address.faultMessages ++ range.faultMessages := listFaultMessages_two address
    rw [orChain?_map_faultMessages hlink hchain, listFaultMessages, List.mem_append]

theorem call_faultMessages {name : String} {args : List Expr} {t : Expr}
    (h : call name args = .ok t) (m : String) :
    m ∈ t.faultMessages ↔ m ∈ listFaultMessages args := by
  obtain ⟨f, insensitive, -, -, htarget⟩ := call_cases h
  rw [target_faultMessages htarget]
  cases insensitive with
  | false => rfl
  | true => rw [if_pos rfl, lowerTwo_faultMessages]

theorem step_keepsFaults : KeepsFaults step := by
  intro node t h m
  cases node with
  | binary op left right =>
      rw [faultMessages, List.mem_append]
      exact binary_faultMessages h m
  | unary op args =>
      obtain ⟨-, rfl⟩ := unary_cases h
      rfl
  | call name args => exact call_faultMessages h m
  | _ =>
      cases h
      rfl

end Dialect

/-! ## Faults through a pass -/

/-- The faults after a pass, given those before it and the errors that the
pass recorded: each was there before or is recorded, and there is one if
there was one or an error is recorded. -/
structure Accounted (before after : List String) (errors : List SoftError) : Prop where
  recorded : ∀ m ∈ after, m ∈ before ∨ m ∈ errors.map SoftError.message
  kept : before ≠ [] ∨ errors ≠ [] → after ≠ []

namespace Accounted

variable {before after before' after' : List String} {errors errors' : List SoftError}

theorem refl (messages : List String) : Accounted messages messages [] :=
  ⟨fun _ => .inl, fun h => h.resolve_right (by simp)⟩

theorem append (h : Accounted before after errors) (h' : Accounted before' after' errors') :
    Accounted (before ++ before') (after ++ after') (errors ++ errors') where
  recorded m hm := by
    simp only [List.map_append, List.mem_append]
    rcases List.mem_append.mp hm with hm | hm
    · exact (h.recorded m hm).imp .inl .inl
    · exact (h'.recorded m hm).imp .inr .inr
  kept := by
    have hkept := h.kept
    have hkept' := h'.kept
    simp only [ne_eq, List.append_eq_nil_iff, not_and_or] at *
    tauto

/-- One pass after the other. -/
theorem trans (h : Accounted before after errors) (h' : Accounted after after' errors') :
    Accounted before after' (errors ++ errors') where
  recorded m hm := by
    simp only [List.map_append, List.mem_append]
    rcases h'.recorded m hm with hm | hm
    · exact (h.recorded m hm).imp_right .inl
    · exact .inr (.inr hm)
  kept := by
    have hkept := h.kept
    have hkept' := h'.kept
    simp only [ne_eq, List.append_eq_nil_iff, not_and_or] at *
    tauto

end Accounted

namespace Expr

section

variable {step : Expr → Except SoftError Expr} (hstep : KeepsFaults step)

include hstep

/-- Finishing a node keeps the account of its parts. -/
theorem finish_accounted {before : List String} {node : Mapped Expr}
    (h : Accounted before node.result.faultMessages node.errors) :
    Accounted before (Mapped.finish step node).result.faultMessages
      (Mapped.finish step node).errors := by
  cases ht : step node.result with
  | ok t =>
      rw [finish_of_ok ht]
      have hmem := hstep _ t ht
      refine ⟨fun m hm => h.recorded m ((hmem m).mp hm), fun hbefore => ?_⟩
      obtain ⟨m, hm⟩ := List.exists_mem_of_ne_nil _ (h.kept hbefore)
      exact List.ne_nil_of_mem ((hmem m).mpr hm)
  | error x =>
      -- whatever the parts held is gone, but the new fault is recorded
      rw [finish_of_error ht]
      refine ⟨fun m hm => .inr ?_, fun _ => by simp [faultMessages]⟩
      obtain rfl : m = x.message := by simpa [faultMessages] using hm
      simp

theorem bottomUp_accounted (e : Expr) :
    Accounted e.faultMessages (bottomUp step e).result.faultMessages (bottomUp step e).errors := by
  have hlist : ∀ es : List Expr, (∀ e ∈ es, Accounted e.faultMessages
      (bottomUp step e).result.faultMessages (bottomUp step e).errors) →
      Accounted (listFaultMessages es) (listFaultMessages (bottomUpList step es).result)
        (bottomUpList step es).errors := by
    intro es hes
    induction es with
    | nil => exact .refl []
    | cons e es ih =>
        obtain ⟨he, hes⟩ := List.forall_mem_cons.mp hes
        exact he.append (ih hes)
  induction e with
  | group e ih => exact finish_accounted hstep ih
  | binary op left right ihl ihr => exact finish_accounted hstep (ihl.append ihr)
  | unary op args ih => exact finish_accounted hstep (hlist args ih)
  | call name args ih => exact finish_accounted hstep (hlist args ih)
  | array items ih => exact finish_accounted hstep (hlist items ih)
  | _ => exact finish_accounted hstep (.refl _)

end

theorem toSql_accounted (e : Expr) (namer : Option Namer) :
    Accounted e.faultMessages (e.toSql namer).result.faultMessages (e.toSql namer).errors := by
  cases namer with
  | none => exact bottomUp_accounted Dialect.step_keepsFaults e
  | some n =>
      exact (bottomUp_accounted (nameFieldStep_keepsFaults n) e).trans
        (bottomUp_accounted Dialect.step_keepsFaults _)

theorem extractList_faultMessages {es : List Expr}
    (ih : ∀ e ∈ es, ∀ taken, (e.extract taken).1.faultMessages = e.faultMessages) (taken : Nat) :
    listFaultMessages (extractList taken es).1 = listFaultMessages es := by
  induction es generalizing taken with
  | nil => rfl
  | cons e es ihes =>
      obtain ⟨he, hes⟩ := List.forall_mem_cons.mp ih
      simp only [extractList, listFaultMessages, he, ihes hes]

/-- Taking constants out leaves the faults alone. -/
theorem extract_faultMessages (e : Expr) (taken : Nat) :
    (e.extract taken).1.faultMessages = e.faultMessages := by
  induction e generalizing taken with
  | const c => cases c <;> rfl
  | group e ih => exact ih taken
  | binary op left right ihl ihr => simp only [extract, faultMessages, ihl, ihr]
  | unary op args ih => exact extractList_faultMessages ih taken
  | call name args ih => exact extractList_faultMessages ih taken
  | array items ih => exact extractList_faultMessages ih taken
  | _ => rfl

theorem clause_faultMessages (e : Expr) (o : Options) :
    (e.clause o).tree.faultMessages = (e.toSql o.namer).result.faultMessages := by
  unfold Expr.clause
  cases o.extractParameters with
  | false => rfl
  | true => exact extract_faultMessages _ 0

end Expr

/-! ## Lowering makes no faults -/

theorem Literal.expr_faultMessages (l : Literal) : l.expr.faultMessages = [] := by
  cases l <;> rfl

theorem Value.expr_faultMessages (v : Value) : v.expr.faultMessages = [] := by
  induction v with
  | null => rfl
  | literal l => exact l.expr_faultMessages
  | field f => rfl
  | call name args ih =>
      rw [expr, Expr.faultMessages, exprs_eq_map, Expr.listFaultMessages_eq_flatMap,
        List.flatMap_map]
      exact List.flatMap_eq_nil_iff.mpr ih
  | group v ih => exact ih
  | arith op left right ihl ihr => rw [expr, Expr.faultMessages, ihl, ihr, List.append_nil]

theorem LookupTarget.expr_faultMessages (target : LookupTarget) :
    target.expr.faultMessages = [] := by
  cases target with
  | list items =>
      rw [expr, Expr.faultMessages, Expr.listFaultMessages_eq_flatMap, List.flatMap_map]
      exact List.flatMap_eq_nil_iff.mpr fun l _ => l.expr_faultMessages
  | value v => exact v.expr_faultMessages

theorem Condition.expr_faultMessages (c : Condition) : c.expr.faultMessages = [] := by
  induction c with
  | boolean raw => rfl
  | not c ih => simp [expr, Expr.faultMessages, Expr.listFaultMessages, ih]
  | group c ih => exact ih
  | comparison op left right => simp [expr, Expr.faultMessages, Value.expr_faultMessages]
  | lookup field negated op target =>
      simp [expr, Expr.faultMessages, Field.expr, LookupTarget.expr_faultMessages]
  | call name args => exact Value.expr_faultMessages (.call name args)
  | notCall name args =>
      simpa [expr, Expr.faultMessages, Expr.listFaultMessages, Value.expr]
        using Value.expr_faultMessages (.call name args)
  | logical op left right ihl ihr => simp [expr, Expr.faultMessages, ihl, ihr]

theorem SimpleQuery.expr?_faultMessages {q : SimpleQuery} {categoryField : String} {e : Expr}
    (h : q.expr? categoryField = some e) : e.faultMessages = [] := by
  rcases expr?_cases h with ⟨c, text, -, -, rfl⟩ | ⟨c, -, -, rfl⟩ | ⟨text, -, -, rfl⟩
  · rw [Expr.faultMessages, c.expr_faultMessages]
    rfl
  · exact c.expr_faultMessages
  · rfl

/-! ## The headline theorem -/

/-- The messages of the faults in a clause; a query that matches
everything has no clause. -/
def clauseFaults : Option Clause → List String
  | none => []
  | some c => c.tree.faultMessages

theorem SimpleQuery.clause_accounted (q : SimpleQuery) (o : Options) :
    Accounted [] (clauseFaults ((q.expr? o.categoryField).map fun e => e.clause o))
      (Filter.ofClause? ((q.expr? o.categoryField).map fun e => e.clause o)).errors := by
  cases he : q.expr? o.categoryField with
  | none => exact .refl []
  | some e =>
      have h := e.toSql_accounted o.namer
      rw [expr?_faultMessages he, ← e.clause_faultMessages o, ← e.clause_errors o] at h
      exact h

theorem Filter.exists_strict_iff (f : Filter) : (∃ g, f.strict = .ok g) ↔ f.errors = [] := by
  unfold Filter.strict
  cases f.errors <;> simp

/-- **The strict setting is sound and complete.** It lets a filter pass if
there is no fault in the tree that the filter was written from; and the
message of every fault in that tree is among the messages of the
filter. -/
theorem strict_iff_no_fault {o : Options} {text : String} {f : Filter}
    (hfilter : Filter.ofText o text = .ok f) :
    ∃ c?, clauseText o text = .ok c? ∧ f = Filter.ofClause? c? ∧
      ((∃ g, f.strict = .ok g) ↔ clauseFaults c? = []) ∧
      ∀ m ∈ clauseFaults c?, m ∈ f.messages := by
  obtain ⟨c?, hclause, rfl⟩ := Filter.ofText_eq_ok_iff.mp hfilter
  obtain ⟨q, -, -, rfl⟩ := clauseText_eq_ok_iff.mp hclause
  have haccounted := q.clause_accounted o
  refine ⟨_, hclause, rfl, ?_, fun m hm => (haccounted.recorded m hm).resolve_left (by simp)⟩
  rw [Filter.exists_strict_iff]
  constructor
  · intro herrors
    refine List.eq_nil_iff_forall_not_mem.mpr fun m hm => ?_
    simpa [herrors] using haccounted.recorded m hm
  · intro hnone
    by_contra herrors
    exact haccounted.kept (.inr herrors) hnone

theorem strict_iff_no_fault_nested :
    ∃ f, Filter.ofText ⟨"event.category", some .columnPath, true⟩
        "file where length(between(a, 1, 2), b) == 3" = .ok f ∧
      f.strict = .error (.degraded ["between function is not implemented",
        "'length' function requires 1 argument(s), but got 2"]) ∧
      ∃ c?, clauseText ⟨"event.category", some .columnPath, true⟩
          "file where length(between(a, 1, 2), b) == 3" = .ok c? ∧ f = Filter.ofClause? c? ∧
        ((∃ g, f.strict = .ok g) ↔ clauseFaults c? = []) ∧
        ∀ m ∈ clauseFaults c?, m ∈ f.messages :=
  have hparse : parse "file where length(between(a, 1, 2), b) == 3" = .ok ⟨.simple ⟨.name "file",
      some (.comparison .eq (.call ⟨.length, false⟩ [.call ⟨.between, false⟩ [.field ⟨"a", false⟩,
        .literal (.number "1"), .literal (.number "2")], .field ⟨"b", false⟩])
        (.literal (.number "3")))⟩, []⟩ := parse_of_finish rfl rfl
  have hfilter : Filter.ofText ⟨"event.category", some .columnPath, true⟩
      "file where length(between(a, 1, 2), b) == 3" = .ok
      ⟨"((throwIf(true, '\\'length\\' function requires 1 argument(s), but got 2') =" ++
        " \x7bP_1:Int64\x7d) AND (\"event::category\" = \x7bP_2:String\x7d))",
        [.int 3, .string "file"],
        [.notImplemented "between", .arity "length" (.exactly 1) 2]⟩ :=
    Filter.ofText_of_parse hparse rfl
  ⟨_, hfilter, rfl, strict_iff_no_fault hfilter⟩

end EventQuery
