import EventQuery.Proofs.DialectSteps
import EventQuery.Proofs.Trees

/-!
# The dialect and maps of trees

A map of trees may change the leaves and the parentheses of a tree and keep
its operators, calls and lists (`Expr.KeepsOperations`). A step of the
dialect over a call commutes with such a map, because it looks at the name
and the number of the arguments only.

A step over an operator also looks at what kind of tree its operands are:
a null, a string or a list. It commutes with the maps that keep these apart
(`Expr.KeepsKinds`). So does the whole pass, for a map that also keeps
groups and faults and makes of a symbol something that the dialect leaves
alone (`toDialect_map`).
-/

namespace EventQuery

namespace Expr

/-! ## What a step sees of an operand -/

/-- The kinds of operands that a step tells apart. -/
inductive Kind where
  | null
  | text (s : String)
  | list
  | other
  deriving DecidableEq

def kind : Expr → Kind
  | .null => .null
  | .const (.string s) => .text s
  | .array _ => .list
  | _ => .other

theorem eq_null_of_kind {e : Expr} (h : e.kind = .null) : e = .null := by
  cases e with
  | null => rfl
  | const c => cases c <;> cases h
  | _ => cases h

theorem eq_of_kind_text {e : Expr} {s : String} (h : e.kind = .text s) :
    e = .const (.string s) := by
  cases e with
  | const c =>
      cases c with
      | string s' =>
          cases h
          rfl
      | _ => cases h
  | _ => cases h

theorem ne_array_of_kind {e : Expr} (h : e.kind ≠ .list) (items : List Expr) :
    e ≠ .array items := by
  rintro rfl
  exact h rfl

/-! ## Maps that keep operations -/

/-- The map changes what stands in operators, calls and lists, but not these
themselves. -/
structure KeepsOperations (f : Expr → Expr) : Prop where
  binary : ∀ op left right, f (.binary op left right) = .binary op (f left) (f right)
  unary : ∀ op args, f (.unary op args) = .unary op (args.map f)
  call : ∀ name args, f (.call name args) = .call name (args.map f)
  array : ∀ items, f (.array items) = .array (items.map f)

/-- The map keeps operations, and constants as well, and an operand stays of
its kind. -/
structure KeepsKinds (f : Expr → Expr) : Prop extends KeepsOperations f where
  const : ∀ c, f (.const c) = .const c
  kind : ∀ e, (f e).kind = e.kind

end Expr

open EventQuery.Expr EventQuery.Dialect

variable {f : Expr → Expr}

namespace Expr.KeepsOperations

variable (h : KeepsOperations f)
include h

theorem orChain?_map : ∀ es : List Expr, orChain? (es.map f) = (orChain? es).map f
  | [] => rfl
  | [_] => rfl
  | e₁ :: e₂ :: es => by
      rw [List.map_cons, List.map_cons, orChain?_cons_cons, ← List.map_cons,
        orChain?_map (e₂ :: es), orChain?_cons_cons, Option.map_map, Option.map_map]
      exact congrArg (Option.map · _) (funext fun chain => (h.binary "OR" e₁ chain).symm)

theorem lower_map (e : Expr) : f (lower e) = lower (f e) := h.call "lower" [e]

theorem lowerTwo_map (args : List Expr) : lowerTwo (args.map f) = (lowerTwo args).map f := by
  match args with
  | [] => rfl
  | [_] | _ :: _ :: _ => simp only [lowerTwo, List.map_cons, List.map_nil, h.lower_map]

theorem negateIf_map (negated : Bool) (e : Expr) :
    f (negateIf negated e) = negateIf negated (f e) := by
  cases negated with
  | false => rfl
  | true => exact h.unary "NOT" [e]

theorem operatorCall?_map (op : String) (args : List Expr) :
    operatorCall? op (args.map f) = (operatorCall? op args).map f := by
  match args with
  | [left, right] => exact congrArg some (h.binary op left right).symm
  | [] | [_] | _ :: _ :: _ :: _ => rfl

theorem cidrCall?_map (args : List Expr) : cidrCall? (args.map f) = (cidrCall? args).map f := by
  cases args with
  | nil => rfl
  | cons address ranges =>
      rw [cidrCall?, ← h.orChain?_map, List.map_map, List.map_cons, cidrCall?, List.map_map]
      refine congrArg orChain? (List.map_congr_left fun range _ => ?_)
      exact (h.call "isIPAddressInRange" [address, range]).symm

theorem target?_map (b : Builtin) (args : List Expr) :
    target? b (args.map f) = (target? b args).map f := by
  cases b with
  | add | subtract | multiply | divide | modulo => exact h.operatorCall?_map _ args
  | cidrMatch => exact h.cidrCall?_map args
  | between => rfl
  | _ => exact congrArg some (h.call _ args).symm

/-- A call does not look at its arguments. -/
theorem call_map (name : String) (args : List Expr) :
    Dialect.call name (args.map f) = (Dialect.call name args).map f := by
  have herror : ∀ b, targetError name b (args.map f) = targetError name b args := by
    intro b
    cases b with
    | cidrMatch => simp [targetError]
    | _ => rfl
  unfold Dialect.call
  cases function? name with
  | none => rfl
  | some found =>
      obtain ⟨b, insensitive⟩ := found
      have htarget : target? b (if insensitive then lowerTwo (args.map f) else args.map f) =
          (target? b (if insensitive then lowerTwo args else args)).map f := by
        cases insensitive with
        | true => exact (congrArg _ (h.lowerTwo_map args)).trans (h.target?_map b _)
        | false => exact h.target?_map b args
      dsimp only
      rw [List.length_map, htarget, herror]
      split
      · cases target? b (if insensitive then lowerTwo args else args) <;> rfl
      · rfl

theorem unary_map (op : String) (args : List Expr) :
    Dialect.unary op (args.map f) = (Dialect.unary op args).map f := by
  unfold Dialect.unary
  split
  · exact congrArg Except.ok (h.unary "NOT" args).symm
  · rfl

end Expr.KeepsOperations

/-! ## Maps that keep kinds -/

namespace Expr.KeepsKinds

variable (h : KeepsKinds f)
include h

theorem operands_map (e : Expr) : operands (f e) = (operands e).map f := by
  by_cases hlist : e.kind = .list
  · cases e with
    | array items => rw [h.array]; rfl
    | const c => cases c <;> cases hlist
    | _ => cases hlist
  · have hmapped : (f e).kind ≠ .list := by rwa [h.kind]
    rw [operands_of_ne_array (ne_array_of_kind hmapped),
      operands_of_ne_array (ne_array_of_kind hlist)]
    rfl

theorem likeOperand_map (e : Expr) : f (likeOperand e) = likeOperand (f e) := by
  have hother : ∀ e : Expr, (∀ s, e.kind ≠ .text s) → likeOperand e = e := by
    intro e he
    cases e with
    | const c =>
        cases c with
        | string s => exact absurd rfl (he s)
        | _ => rfl
    | _ => rfl
  by_cases htext : ∃ s, e.kind = .text s
  · obtain ⟨s, hs⟩ := htext
    obtain rfl := eq_of_kind_text hs
    rw [h.const]
    exact h.const _
  · have hkind : ∀ s, e.kind ≠ .text s := fun s hs => htext ⟨s, hs⟩
    rw [hother e hkind, hother (f e) (by rwa [h.kind])]

theorem patternTest_map (op : LookupOp) (field pattern : Expr) :
    f (patternTest op field pattern) = patternTest op (f field) (f pattern) := by
  cases op with
  | like | colon | likeInsensitive => exact (h.binary _ _ _).trans (by rw [h.likeOperand_map]; rfl)
  | _ => exact h.call "match" [field, pattern]

theorem patternLookup_map (negated : Bool) (op : LookupOp) (field patterns : Expr) :
    patternLookup negated (f field) (f patterns) (patternTest op) =
      (patternLookup negated field patterns (patternTest op)).map f := by
  have htests : (operands (f patterns)).map (patternTest op (f field)) =
      ((operands patterns).map (patternTest op field)).map f := by
    rw [h.operands_map, List.map_map, List.map_map]
    exact List.map_congr_left fun e _ => (h.patternTest_map op field e).symm
  rw [patternLookup_eq, patternLookup_eq, htests, h.orChain?_map]
  cases orChain? ((operands patterns).map (patternTest op field)) with
  | none => rfl
  | some chain => exact congrArg Except.ok (h.negateIf_map negated chain).symm

theorem inLookup_map (negated : Bool) (left right : Expr) :
    inLookup negated (f left) (f right) = f (inLookup negated left right) := by
  rw [inLookup_eq, inLookup_eq, h.binary, h.array, h.operands_map]

theorem inLookupInsensitive_map (op : String) (negated : Bool) (left right : Expr) :
    inLookupInsensitive op negated (f left) (f right) =
      (inLookupInsensitive op negated left right).map f := by
  by_cases hlist : ∃ items, right = .array items
  · obtain ⟨items, rfl⟩ := hlist
    have hlower : (items.map f).map lower = (items.map lower).map f := by
      rw [List.map_map, List.map_map]
      exact List.map_congr_left fun e _ => (h.lower_map e).symm
    rw [h.array, inLookupInsensitive, inLookupInsensitive, hlower, ← h.array, ← h.lower_map]
    exact congrArg Except.ok (h.binary _ _ _).symm
  · have hfails : ∀ left right : Expr, (∀ items, right ≠ .array items) →
        inLookupInsensitive op negated left right = .error (.needsList op) := by
      intro left right hright
      cases right with
      | array items => exact absurd rfl (hright items)
      | _ => rfl
    have hkind : right.kind ≠ .list := by
      cases right with
      | array items => exact absurd ⟨items, rfl⟩ hlist
      | const c => cases c <;> nofun
      | _ => nofun
    have hmapped : (f right).kind ≠ .list := by rwa [h.kind]
    rw [hfails _ _ (ne_array_of_kind hkind), hfails _ _ (ne_array_of_kind hmapped)]
    rfl

theorem lookup_map (op : String) (negated : Bool) (base : String) (left right : Expr) :
    Dialect.lookup op negated base (f left) (f right) =
      (Dialect.lookup op negated base left right).map f := by
  unfold Dialect.lookup
  split
  · exact congrArg Except.ok (h.inLookup_map negated left right)
  · exact h.inLookupInsensitive_map op negated left right
  · exact h.patternLookup_map negated .like left right
  · exact h.patternLookup_map negated .likeInsensitive left right
  · exact h.patternLookup_map negated .colon left right
  · exact h.patternLookup_map negated .regex left right
  · exact h.patternLookup_map negated .regexInsensitive left right
  · rfl

/-- Of an operand an operator only asks whether it is a null. -/
theorem plainOp?_map (op : String) (right : Expr) : plainOp? op (f right) = plainOp? op right := by
  have hother : ∀ e : Expr, e.kind ≠ .null → plainOp? op e = plainOp? op (.array []) := by
    intro e he
    cases e with
    | null => exact absurd rfl he
    | _ => rfl
  by_cases hnull : right.kind = .null
  · rw [eq_null_of_kind ((h.kind right).trans hnull), eq_null_of_kind hnull]
  · rw [hother right hnull, hother (f right) (by rwa [h.kind])]

theorem binary_map (op : String) (left right : Expr) :
    Dialect.binary op (f left) (f right) = (Dialect.binary op left right).map f := by
  unfold Dialect.binary
  rw [h.plainOp?_map]
  cases plainOp? op right with
  | some sqlOp => exact congrArg Except.ok (h.binary sqlOp left right).symm
  | none => exact h.lookup_map op (splitNot op).1 (splitNot op).2 left right

end Expr.KeepsKinds

/-! ## The pass -/

/-- A mapped tree under a map of trees. -/
def Mapped.under (f : Expr → Expr) (m : Mapped Expr) : Mapped Expr := ⟨f m.result, m.errors⟩

/-- Finishing a node commutes with a map that keeps faults, if the step
does. -/
theorem Mapped.finish_under (hfault : ∀ message, f (.fault message) = .fault message)
    {step : Expr → Except SoftError Expr} {node : Expr} (h : step (f node) = (step node).map f)
    (errors : List SoftError) :
    Mapped.finish step ⟨f node, errors⟩ = (Mapped.finish step ⟨node, errors⟩).under f := by
  unfold Mapped.finish
  rw [h]
  cases step node with
  | ok e => rfl
  | error x => exact congrArg (Mapped.mk · _) (hfault x.message).symm

theorem bottomUpList_under {step : Expr → Except SoftError Expr} {es : List Expr}
    (h : ∀ e ∈ es, bottomUp step (f e) = (bottomUp step e).under f) :
    bottomUpList step (es.map f) =
      ⟨(bottomUpList step es).result.map f, (bottomUpList step es).errors⟩ := by
  induction es with
  | nil => rfl
  | cons e es ih =>
      obtain ⟨he, hes⟩ := List.forall_mem_cons.mp h
      rw [List.map_cons, bottomUpList, bottomUpList, he, ih hes]
      rfl

/-- The dialect commutes with a map that keeps kinds, groups and faults, if
it has nothing to do for what the map makes of a symbol. -/
theorem toDialect_map (h : KeepsKinds f) (hgroup : ∀ e, f (.group e) = .group (f e))
    (hfault : ∀ message, f (.fault message) = .fault message)
    (hsymbol : ∀ name, (f (.symbol name)).toDialect = ⟨f (.symbol name), []⟩) (e : Expr) :
    (f e).toDialect = e.toDialect.under f := by
  unfold toDialect
  induction e with
  | const c => rw [h.const]; exact congrArg (Mapped.mk · _) (h.const c).symm
  | symbol name => exact hsymbol name
  | null =>
      have hnull : f .null = .null := eq_null_of_kind (h.kind .null)
      rw [hnull]
      exact congrArg (Mapped.mk · _) hnull.symm
  | group e ih =>
      rw [hgroup, bottomUp, ih]
      exact congrArg (Mapped.mk · _) (hgroup _).symm
  | binary op left right ihl ihr =>
      rw [h.binary, bottomUp, ihl, ihr]
      refine (congrArg (Mapped.finish step ⟨·, _⟩) (h.binary op _ _).symm).trans ?_
      refine Mapped.finish_under hfault ?_ _
      rw [h.binary]
      exact h.binary_map op _ _
  | unary op args ih =>
      rw [h.unary, bottomUp, bottomUpList_under ih]
      refine (congrArg (Mapped.finish step ⟨·, _⟩) (h.unary op _).symm).trans ?_
      refine Mapped.finish_under hfault ?_ _
      rw [h.unary]
      exact h.unary_map op _
  | call name args ih =>
      rw [h.call, bottomUp, bottomUpList_under ih]
      refine (congrArg (Mapped.finish step ⟨·, _⟩) (h.call name _).symm).trans ?_
      refine Mapped.finish_under hfault ?_ _
      rw [h.call]
      exact h.call_map name _
  | array items ih =>
      rw [h.array, bottomUp, bottomUpList_under ih]
      exact congrArg (Mapped.mk · _) (h.array _).symm
  | fault message => rw [hfault]; exact congrArg (Mapped.mk · _) (hfault message).symm

end EventQuery
