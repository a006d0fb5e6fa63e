import EventQuery.Proofs.DialectSteps
import EventQuery.Proofs.QuerySemantics

/-!
# The dialect keeps meanings

One step of the dialect at a time: if the operands of a node have values,
the node that the step makes has the value that the query language gives
the operator or the function. No induction happens here; the lemmas are
put together over whole trees elsewhere.
-/

namespace EventQuery

variable {δ : Type} {E : Engine δ} {row : String → SqlValue δ}

namespace Dialect

/-! ## Comparisons, connectives and arithmetic -/

theorem operator?_token (op : ArithOp) : E.operator? op.token = some (E.arith op) := by
  cases op <;> rfl

theorem arith_value {op : ArithOp} {left right t : Expr} {v w : SqlValue δ}
    (hl : left.sqlValue E row = some v) (hr : right.sqlValue E row = some w)
    (h : binary op.token left right = .ok t) : t.sqlValue E row = some (E.arith op v w) := by
  have hstep : binary op.token left right = .ok (.binary op.token left right) := by
    cases op <;> rfl
  obtain rfl := Except.ok.inj (hstep.symm.trans h)
  exact Expr.sqlValue_operator (operator?_token op) hl hr

theorem and_value {left right t : Expr} {v w : SqlValue δ}
    (hl : left.sqlValue E row = some v) (hr : right.sqlValue E row = some w)
    (h : binary "and" left right = .ok t) : t.sqlValue E row = some (E.and v w) := by
  obtain rfl : Expr.binary "AND" left right = t := Except.ok.inj h
  exact Expr.sqlValue_operator rfl hl hr

theorem or_value {left right t : Expr} {v w : SqlValue δ}
    (hl : left.sqlValue E row = some v) (hr : right.sqlValue E row = some w)
    (h : binary "or" left right = .ok t) : t.sqlValue E row = some (E.or v w) := by
  obtain rfl : Expr.binary "OR" left right = t := Except.ok.inj h
  exact Expr.sqlValue_operator rfl hl hr

theorem not_value {e t : Expr} {v : SqlValue δ} (he : e.sqlValue E row = some v)
    (h : unary "not" [e] = .ok t) : t.sqlValue E row = some (E.not v) := by
  obtain rfl : Expr.unary "NOT" [e] = t := Except.ok.inj h
  exact Expr.sqlValue_not he

theorem eq_null_value {left t : Expr} {v : SqlValue δ} (hl : left.sqlValue E row = some v)
    (h : binary "==" left .null = .ok t) : t.sqlValue E row = some (.ofTruth v.isNull) := by
  obtain rfl : Expr.binary "IS" left .null = t := Except.ok.inj h
  exact Expr.sqlValue_is hl

theorem notEq_null_value {left t : Expr} {v : SqlValue δ} (hl : left.sqlValue E row = some v)
    (h : binary "!=" left .null = .ok t) : t.sqlValue E row = some (.ofTruth v.isNull.not) := by
  obtain rfl : Expr.binary "IS NOT" left .null = t := Except.ok.inj h
  exact Expr.sqlValue_isNot hl

/-- The operator of SQL for a comparison that is no null test. -/
def compareOp : CompareOp → String
  | .eq => "="
  | .notEq => "<>"
  | .greater => ">"
  | .less => "<"
  | .greaterEq => ">="
  | .lessEq => "<="

/-- All comparisons but the two null tests. -/
theorem compare_value {op : CompareOp} {left right t : Expr} {v w : SqlValue δ}
    (hnull : right = .null → op ≠ .eq ∧ op ≠ .notEq)
    (hl : left.sqlValue E row = some v) (hr : right.sqlValue E row = some w)
    (h : binary op.token left right = .ok t) :
    t.sqlValue E row = some (.ofTruth (E.compare op v w)) := by
  have hstep : binary op.token left right = .ok (.binary (compareOp op) left right) := by
    cases op with
    | eq => cases right <;> first | rfl | exact absurd rfl (hnull rfl).1
    | notEq => cases right <;> first | rfl | exact absurd rfl (hnull rfl).2
    | _ => rfl
  have hop : E.operator? (compareOp op) = some fun v w => .ofTruth (E.compare op v w) := by
    cases op <;> rfl
  obtain rfl := Except.ok.inj (hstep.symm.trans h)
  exact Expr.sqlValue_operator hop hl hr

/-! ## Functions -/

theorem builtin?_of_functionName? {f : Builtin} {name : String}
    (hname : functionName? f = some name) {vs : List (SqlValue δ)}
    (hcount : (arity f).accepts vs.length) : E.builtin? f vs = some (E.apply name vs) := by
  cases f <;> cases hname <;> simp only [arity, Arity.accepts, beq_iff_eq, Bool.or_eq_true,
    decide_eq_true_eq] at hcount
  case concat => cases vs <;> [cases hcount; rfl]
  case length | number | string =>
    obtain ⟨v, rfl⟩ := List.length_eq_one_iff.mp hcount
    rfl
  case endsWith | startsWith | stringContains =>
    obtain ⟨v, w, rfl⟩ := List.length_eq_two.mp hcount
    rfl
  case indexOf | substring =>
    rcases hcount with hcount | hcount
    · obtain ⟨v, w, rfl⟩ := List.length_eq_two.mp hcount
      rfl
    · obtain ⟨u, v, w, rfl⟩ := List.length_eq_three.mp hcount
      rfl

/-- A function over an accepted number of arguments keeps its meaning. -/
theorem target_value {f : Builtin} {args : List Expr} {vs : List (SqlValue δ)} {t : Expr}
    (hargs : List.Forall₂ (fun e v => e.sqlValue E row = some v) args vs)
    (hcount : (arity f).accepts args.length) (h : target? f args = some t) :
    ∃ v, E.builtin? f vs = some v ∧ t.sqlValue E row = some v := by
  rcases target_cases h with ⟨name, hname, rfl⟩ | ⟨op, left, right, hop, rfl, rfl⟩ |
    ⟨address, ranges, rfl, rfl, hchain⟩
  · rw [hargs.length_eq] at hcount
    exact ⟨_, builtin?_of_functionName? hname hcount, Expr.sqlValue_call hargs⟩
  · match vs, hargs with
    | [v, w], .cons hl (.cons hr .nil) =>
        have hbuiltin : E.builtin? f [v, w] = some (E.arith op v w) := by
          cases f <;> cases hop <;> rfl
        exact ⟨_, hbuiltin, Expr.sqlValue_operator (operator?_token op) hl hr⟩
  · match ranges, hargs with
    | [], _ => cases hchain
    | _ :: _, .cons haddress (.cons hrange hranges) =>
        refine ⟨_, rfl, Expr.sqlValue_orChain ?_ hchain⟩
        rw [List.forall₂_map_left_iff, List.forall₂_map_right_iff]
        refine List.Forall₂.imp (fun e v he => ?_) (List.Forall₂.cons hrange hranges)
        exact Expr.sqlValue_call (.cons haddress (.cons he .nil))

theorem lower_value {e : Expr} {v : SqlValue δ} (he : e.sqlValue E row = some v) :
    (lower e).sqlValue E row = some (E.lower v) :=
  Expr.sqlValue_call (.cons he .nil)

theorem lowerTwo_value {args : List Expr} {vs : List (SqlValue δ)}
    (hargs : List.Forall₂ (fun e v => e.sqlValue E row = some v) args vs)
    (hcount : 2 ≤ args.length) :
    List.Forall₂ (fun e v => e.sqlValue E row = some v) (lowerTwo args) (E.lowerTwo vs) := by
  match args, hargs with
  | [_], _ => simp at hcount
  | _ :: _ :: _, .cons ha (.cons hb hargs) =>
      exact .cons (lower_value ha) (.cons (lower_value hb) hargs)

/-- The functions with a variant that disregards case take two arguments
or more. -/
theorem two_le_of_accepts {f : Builtin} (hf : hasInsensitive f) {n : Nat}
    (hcount : (arity f).accepts n) : 2 ≤ n := by
  cases f <;> cases hf <;>
    simp only [arity, Arity.accepts, beq_iff_eq, Bool.or_eq_true] at hcount <;> omega

/-- A call keeps its meaning. -/
theorem call_value {f : CallName} {args : List Expr} {vs : List (SqlValue δ)} {t : Expr}
    (hargs : List.Forall₂ (fun e v => e.sqlValue E row = some v) args vs)
    (h : call f.text args = .ok t) : ∃ v, E.call? f vs = some v ∧ t.sqlValue E row = some v := by
  obtain ⟨hvariant, hcount, htarget⟩ := call_text_eq_ok h
  obtain ⟨b, insensitive⟩ := f
  cases insensitive with
  | false => exact target_value hargs hcount htarget
  | true =>
      have hb : hasInsensitive b := hvariant rfl
      have hlower := lowerTwo_value hargs (two_le_of_accepts hb hcount)
      rw [← length_lowerTwo] at hcount
      obtain ⟨v, hv, hvalue⟩ := target_value hlower hcount htarget
      refine ⟨v, ?_, hvalue⟩
      cases b <;> cases hb <;> exact hv

/-! ## Lookups -/

/-- An operand of a lookup as its operator reads it. -/
def operandFor (op : LookupOp) (e : Expr) : Expr :=
  if op.takesPattern then likeOperand e else e

/-- A truth value, negated or not. -/
theorem negateIf_value {e : Expr} {t : Truth} (negated : Bool)
    (he : e.sqlValue E row = some (.ofTruth t)) :
    (negateIf negated e).sqlValue E row = some (.ofTruth (if negated then t.not else t)) := by
  cases negated with
  | false => exact he
  | true =>
      have hnot := Expr.sqlValue_not he
      rwa [Engine.not, Engine.truth_ofTruth] at hnot

theorem in_value {left : Expr} {items : List Expr} {v : SqlValue δ} {vs : List (SqlValue δ)}
    (negated : Bool) (hl : left.sqlValue E row = some v)
    (hitems : List.Forall₂ (fun e v => e.sqlValue E row = some v) items vs) :
    (Expr.binary (inOp negated) left (.array items)).sqlValue E row
      = some (.ofTruth (if negated then (E.member v vs).not else E.member v vs)) := by
  cases negated with
  | false => exact Expr.sqlValue_in hl hitems
  | true => exact Expr.sqlValue_notIn hl hitems

theorem patternTest_value {op : LookupOp} {left e : Expr} {v w : SqlValue δ}
    (hin : op ≠ .inList) (hin' : op ≠ .inListInsensitive) (hl : left.sqlValue E row = some v)
    (he : (operandFor op e).sqlValue E row = some w) :
    (patternTest op left e).sqlValue E row = some (.ofTruth (E.hits op v w)) := by
  cases op with
  | inList => exact absurd rfl hin
  | inListInsensitive => exact absurd rfl hin'
  | like => exact Expr.sqlValue_operator (f := fun v w => .ofTruth (E.like v w)) rfl hl he
  | likeInsensitive | colon =>
      exact Expr.sqlValue_operator (f := fun v w => .ofTruth (E.ilike v w)) rfl hl he
  | regex | regexInsensitive => exact Expr.sqlValue_call (.cons hl (.cons he .nil))

theorem patternLookup_value {op : LookupOp} {negated : Bool} {left right t : Expr}
    {v : SqlValue δ} {ws : List (SqlValue δ)} (hin : op ≠ .inList)
    (hin' : op ≠ .inListInsensitive) (hl : left.sqlValue E row = some v)
    (hr : List.Forall₂ (fun e w => (operandFor op e).sqlValue E row = some w) (operands right) ws)
    (h : patternLookup negated left right (patternTest op) = .ok t) :
    t.sqlValue E row = some (.ofTruth
      (if negated then (Truth.any (ws.map (E.hits op v))).not
       else Truth.any (ws.map (E.hits op v)))) := by
  rw [patternLookup_eq] at h
  split at h <;> cases h
  rename_i chain hchain
  refine negateIf_value negated (Expr.sqlValue_orChain ?_ hchain)
  rw [List.forall₂_map_left_iff, List.forall₂_map_right_iff]
  exact hr.imp fun e w he => patternTest_value hin hin' hl he

/-- A lookup keeps its meaning: does one of the operands match? -/
theorem lookup_value {op : LookupOp} {negated : Bool} {left right t : Expr} {v : SqlValue δ}
    {ws : List (SqlValue δ)} (hl : left.sqlValue E row = some v)
    (hr : List.Forall₂ (fun e w => (operandFor op e).sqlValue E row = some w) (operands right) ws)
    (h : binary (op.name negated) left right = .ok t) :
    t.sqlValue E row = some (.ofTruth
      (if negated then (Truth.any (ws.map (E.hits op v))).not
       else Truth.any (ws.map (E.hits op v)))) := by
  rw [binary_lookup] at h
  cases op with
  | inList =>
      obtain rfl := Except.ok.inj h
      rw [inLookup_eq]
      exact in_value negated hl hr
  | inListInsensitive =>
      -- Only a list has this lookup.
      cases right with
      | array items =>
          obtain rfl := Except.ok.inj h
          have hlower : List.Forall₂ (fun e v => e.sqlValue E row = some v)
              (items.map lower) (ws.map E.lower) := by
            rw [List.forall₂_map_left_iff, List.forall₂_map_right_iff]
            exact hr.imp fun e w he => lower_value he
          have hvalue := in_value negated (lower_value hl) hlower
          rwa [Engine.member, List.map_map] at hvalue
      | _ => cases h
  | _ => exact patternLookup_value (by simp) (by simp) hl hr h

end Dialect

end EventQuery
