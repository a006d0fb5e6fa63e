import EventQuery.Proofs.DialectSteps
import EventQuery.Proofs.Trees

/-!
# Nodes of a query that offend

A node of a query has no counterpart in SQL for a reason of its own,
whatever its parts are: a call because of its name and the number of its
arguments, a lookup that wants a list because its target is none. Such a
node offends (`Node.Offends`), and `Node.complaint?` is what is said about
it.

The second half compares this with the dialect. For every operator and
function that a query can write it says when the step fails and with which
error, so that later proofs need not look into a step.
-/

namespace EventQuery

/-! ## Nodes -/

/-- A node of the condition of a query. -/
inductive Node where
  | value (v : Value)
  | condition (c : Condition)

mutual

/-- The nodes of a value, each after the nodes below it. -/
def Value.nodes : Value → List Node
  | .null => [.value .null]
  | .literal l => [.value (.literal l)]
  | .field f => [.value (.field f)]
  | .call name args => Value.listNodes args ++ [.value (.call name args)]
  | .group v => v.nodes ++ [.value (.group v)]
  | .arith op left right => left.nodes ++ right.nodes ++ [.value (.arith op left right)]

def Value.listNodes : List Value → List Node
  | [] => []
  | v :: vs => v.nodes ++ Value.listNodes vs

end

def LookupTarget.nodes : LookupTarget → List Node
  | .list items => items.map fun l => .value (.literal l)
  | .value v => v.nodes

/-- The nodes of a condition, each after the nodes below it. -/
def Condition.nodes : Condition → List Node
  | .boolean raw => [.condition (.boolean raw)]
  | .not c => c.nodes ++ [.condition (.not c)]
  | .group c => c.nodes ++ [.condition (.group c)]
  | .comparison op left right =>
    left.nodes ++ right.nodes ++ [.condition (.comparison op left right)]
  | .lookup field negated op target =>
    .value (.field field) :: target.nodes ++ [.condition (.lookup field negated op target)]
  | .call name args => Value.listNodes args ++ [.condition (.call name args)]
  | .notCall name args => Value.listNodes args ++ [.condition (.notCall name args)]
  | .logical op left right => left.nodes ++ right.nodes ++ [.condition (.logical op left right)]

def SimpleQuery.nodes (q : SimpleQuery) : List Node :=
  (q.condition.map Condition.nodes).getD []

theorem Value.listNodes_eq_flatMap (vs : List Value) : listNodes vs = vs.flatMap nodes := by
  induction vs with
  | nil => rfl
  | cons v vs ih => rw [listNodes, ih, List.flatMap_cons]

/-! ## Nodes that offend -/

/-- A call offends if its function has no variant that disregards case, if
it has too few or too many arguments, or if it is the one function without
an SQL form. -/
def CallName.Offends (f : CallName) (count : Nat) : Prop :=
  (f.insensitive = true ∧ f.builtin ∉ [.endsWith, .indexOf, .startsWith, .stringContains]) ∨
    (Dialect.arity f.builtin).accepts count = false ∨ f.builtin = .between ∧ count = 3

instance (f : CallName) (count : Nat) : Decidable (f.Offends count) :=
  inferInstanceAs (Decidable (_ ∨ _))

/-- What is said about a call that offends. The name is looked at before
the number of arguments. -/
def CallName.complaint (f : CallName) (count : Nat) : SoftError :=
  if f.insensitive && !Dialect.hasInsensitive f.builtin then .unknownFunction f.text
  else if (Dialect.arity f.builtin).accepts count then .notImplemented f.text
  else .arity f.text (Dialect.arity f.builtin) count

def CallName.complaint? (f : CallName) (count : Nat) : Option SoftError :=
  if f.Offends count then some (f.complaint count) else none

def Node.Offends : Node → Prop
  | .condition (.lookup _ _ op (.value _)) => op = .inListInsensitive
  | .condition (.call f args) => f.Offends args.length
  | .condition (.notCall f args) => f.Offends args.length
  | .value (.call f args) => f.Offends args.length
  | _ => False

/-- What is said about a node, if it offends. -/
def Node.complaint? : Node → Option SoftError
  | .condition (.lookup _ negated op (.value _)) =>
    if op = .inListInsensitive then some (.needsList (op.name negated)) else none
  | .condition (.call f args) => f.complaint? args.length
  | .condition (.notCall f args) => f.complaint? args.length
  | .value (.call f args) => f.complaint? args.length
  | _ => none

theorem CallName.complaint?_isSome_iff {f : CallName} {count : Nat} :
    (f.complaint? count).isSome = true ↔ f.Offends count := by
  unfold complaint?
  split <;> simpa

/-- A node is reported if it offends. -/
theorem Node.complaint?_isSome_iff (n : Node) : n.complaint?.isSome = true ↔ n.Offends := by
  cases n with
  | value v =>
      cases v with
      | call f args => exact CallName.complaint?_isSome_iff
      | _ => simp [complaint?, Offends]
  | condition c =>
      cases c with
      | lookup field negated op target =>
          cases target with
          | list items => simp [complaint?, Offends]
          | value v => by_cases hop : op = .inListInsensitive <;> simp [complaint?, Offends, hop]
      | call f args => exact CallName.complaint?_isSome_iff
      | notCall f args => exact CallName.complaint?_isSome_iff
      | _ => simp [complaint?, Offends]

instance : DecidablePred Node.Offends := fun n =>
  decidable_of_iff _ n.complaint?_isSome_iff

theorem Node.complaints_concat (ns : List Node) (n : Node) :
    (ns ++ [n]).filterMap complaint? = ns.filterMap complaint? ++ n.complaint?.toList := by
  rw [List.filterMap_append]
  cases h : n.complaint? <;> simp [h]

/-! ## What the dialect says about a node -/

/-- The error of a step, if it fails. -/
def failure? {α : Type} : Except SoftError α → Option SoftError
  | .ok _ => none
  | .error x => some x

theorem Mapped.finish_errors (step : Expr → Except SoftError Expr) (node : Mapped Expr) :
    (Mapped.finish step node).errors = node.errors ++ (failure? (step node.result)).toList := by
  cases h : step node.result with
  | ok e =>
      rw [Expr.finish_of_ok h]
      exact (List.append_nil _).symm
  | error x =>
      rw [Expr.finish_of_error h]
      rfl

theorem Expr.orChain?_isSome {es : List Expr} (h : es ≠ []) : (orChain? es).isSome = true := by
  match es with
  | [] => exact absurd rfl h
  | [_] => rfl
  | _ :: e :: es =>
      rw [orChain?_cons_cons, Option.isSome_map]
      exact orChain?_isSome (List.cons_ne_nil e es)

namespace Dialect

theorem compare_failure? (op : CompareOp) (left right : Expr) :
    failure? (binary op.token left right) = none := by
  cases op <;> cases right <;> rfl

theorem logic_failure? (op : LogicOp) (left right : Expr) :
    failure? (binary op.token left right) = none := by
  cases op <;> rfl

theorem arith_failure? (op : ArithOp) (left right : Expr) :
    failure? (binary op.token left right) = none := by
  cases op <;> rfl

theorem binary_patternLookup {op : LookupOp} (hlist : op ≠ .inList)
    (hinsensitive : op ≠ .inListInsensitive) (negated : Bool) (left right : Expr) :
    binary (op.name negated) left right
      = patternLookup negated left right (patternTest op) := by
  rw [binary_lookup]
  cases op with
  | inList => exact absurd rfl hlist
  | inListInsensitive => exact absurd rfl hinsensitive
  | _ => rfl

/-- A lookup of patterns fails only if there is none. -/
theorem pattern_failure? {op : LookupOp} (hlist : op ≠ .inList)
    (hinsensitive : op ≠ .inListInsensitive) (negated : Bool) (left : Expr) {right : Expr}
    (h : operands right ≠ []) : failure? (binary (op.name negated) left right) = none := by
  have hsome : (Expr.orChain? ((operands right).map (patternTest op left))).isSome = true :=
    Expr.orChain?_isSome (by simpa using h)
  obtain ⟨chain, hchain⟩ := Option.isSome_iff_exists.mp hsome
  rw [binary_patternLookup hlist hinsensitive, patternLookup_eq, hchain]
  rfl

/-- A lookup over a list that is not empty. -/
theorem lookup_list_failure? (op : LookupOp) (negated : Bool) (left : Expr) {items : List Expr}
    (h : items ≠ []) : failure? (binary (op.name negated) left (.array items)) = none := by
  cases op with
  | inList => cases negated <;> rfl
  | inListInsensitive => cases negated <;> rfl
  | _ => exact pattern_failure? (by simp) (by simp) negated left h

/-- A lookup of one value. -/
theorem lookup_value_failure? (op : LookupOp) (negated : Bool) (left : Expr) {right : Expr}
    (h : ∀ items, right ≠ .array items) : failure? (binary (op.name negated) left right) =
      if op = .inListInsensitive then some (.needsList (op.name negated)) else none := by
  by_cases hinsensitive : op = .inListInsensitive
  · subst hinsensitive
    rw [if_pos rfl, binary_lookup]
    cases right with
    | array items => exact absurd rfl (h items)
    | _ => rfl
  · rw [if_neg hinsensitive]
    by_cases hlist : op = .inList
    · subst hlist
      rw [binary_lookup]
      rfl
    · refine pattern_failure? hlist hinsensitive negated left ?_
      cases right with
      | array items => exact absurd rfl (h items)
      | _ => simp [operands]

/-- Over an accepted number of arguments every function but one has an SQL
form. -/
theorem target?_eq_none_iff {f : Builtin} {args : List Expr}
    (h : (arity f).accepts args.length = true) : target? f args = none ↔ f = .between := by
  have hoperator : ∀ op, args.length = 2 → operatorCall? op args ≠ none := by
    intro op hlength
    obtain ⟨left, right, rfl⟩ := List.length_eq_two.mp hlength
    simp [operatorCall?]
  have hcidr : 2 ≤ args.length → cidrCall? args ≠ none := by
    intro hlength
    match args, hlength with
    | address :: range :: ranges, _ =>
        exact Option.isSome_iff_ne_none.mp (Expr.orChain?_isSome (by simp))
  cases f with
  | add | subtract | multiply | divide | modulo =>
      have hlength : args.length = 2 := by simpa [arity, Arity.accepts] using h
      simpa [target?] using hoperator _ hlength
  | cidrMatch => simpa [target?] using hcidr (by simpa [arity, Arity.accepts] using h)
  | _ => simp [target?]

theorem hasInsensitive_iff {f : Builtin} : hasInsensitive f = true ↔
    f ∈ [.endsWith, .indexOf, .startsWith, .stringContains] := by
  cases f <;> decide

/-- A call fails if it offends, whatever its arguments are. -/
theorem call_failure? (f : CallName) (args : List Expr) :
    failure? (call f.text args) = f.complaint? args.length := by
  have hname : f.insensitive = true ∧
      f.builtin ∉ [.endsWith, .indexOf, .startsWith, .stringContains] ↔
      (f.insensitive && !hasInsensitive f.builtin) = true := by
    rw [← hasInsensitive_iff, Bool.and_eq_true, Bool.not_eq_true', Bool.eq_false_iff]
  cases hvariant : f.insensitive && !hasInsensitive f.builtin with
  | true =>
      have hoffends : f.Offends args.length := .inl (hname.mpr hvariant)
      simp [call, function?_text, CallName.complaint?, CallName.complaint, hoffends, hvariant,
        failure?]
  | false =>
      cases haccepts : (arity f.builtin).accepts args.length with
      | false =>
          have hoffends : f.Offends args.length := .inr (.inl haccepts)
          simp [call, function?_text, CallName.complaint?, CallName.complaint, hoffends, hvariant,
            haccepts, failure?]
      | true =>
          have htarget : target? f.builtin (if f.insensitive then lowerTwo args else args) = none ↔
              f.builtin = .between := by
            refine target?_eq_none_iff ?_
            split
            · rwa [length_lowerTwo]
            · exact haccepts
          by_cases hbetween : f.builtin = .between
          · have hthree : args.length = 3 := by
              simpa [hbetween, arity, Arity.accepts] using haccepts
            have hoffends : f.Offends args.length := .inr (.inr ⟨hbetween, hthree⟩)
            have hnone := htarget.mpr hbetween
            have herror : targetError f.text f.builtin args = .notImplemented f.text := by
              rw [hbetween]
              rfl
            simp [call, function?_text, CallName.complaint?, CallName.complaint, hoffends,
              hvariant, haccepts, hnone, herror, failure?]
          · have hoffends : ¬ f.Offends args.length := by
              rintro (h | h | h)
              · simp [hname.mp h] at hvariant
              · simp [haccepts] at h
              · exact hbetween h.1
            obtain ⟨e, he⟩ := Option.ne_none_iff_exists'.mp (mt htarget.mp hbetween)
            simp [call, function?_text, CallName.complaint?, hoffends, hvariant, haccepts, he,
              failure?]

/-- Of what the dialect makes of an operator or a call, nothing is a list. -/
theorem finish_ne_array {node : Mapped Expr} (h : node.result.isCompound = true)
    (items : List Expr) : (Mapped.finish step node).result ≠ .array items := by
  refine Expr.finish_result_induct (P := (· ≠ .array items)) (by simp) fun t ht => ?_
  have hcompound := step_isCompound h ht
  rintro rfl
  cases hcompound

end Dialect

end EventQuery
