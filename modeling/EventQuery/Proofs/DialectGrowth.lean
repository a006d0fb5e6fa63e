import EventQuery.Proofs.Parentheses
import EventQuery.Proofs.ParserCompleteness
import Mathlib.Tactic.Ring

/-!
# How much a query grows

A lookup of patterns writes its field once per pattern, and a test of an
address in ranges writes the address once per range. The field is one node,
so lookups grow by a constant factor. The address is any value, and copies
of it are copied again where tests are nested.

`CallName.copied?` is the argument that a call copies. Two bounds on the
size of what the dialect makes of a query hang on it. If what becomes of the
copied arguments has at most `b` nodes, the query grows by the factor
`b + 4`; and with copies nested `d` deep a query of `n` nodes grows to at
most `4 * n * (2 * n) ^ d` nodes (`nodeCount_toDialect_le`). Depth cannot be
left out: no factor fits all queries (`not_nodeCount_toDialect_linear`).
-/

namespace EventQuery

/-! ## Sizes -/

namespace Expr

/-- A chain has its members and the operators between them. -/
theorem orChain?_nodeCount : ∀ {es : List Expr} {t : Expr}, orChain? es = some t →
    t.nodeCount + 1 = listNodeCount es + es.length
  | [], _, h => by cases h
  | [e], _, h => by
      cases h
      rfl
  | e₁ :: e₂ :: es, _, h => by
      rw [orChain?_cons_cons] at h
      obtain ⟨tail, htail, rfl⟩ := Option.map_eq_some_iff.mp h
      have ih := orChain?_nodeCount htail
      simp only [nodeCount, listNodeCount, List.length_cons] at ih ⊢
      omega

/-- Members that each grow by the same number of nodes. -/
theorem listNodeCount_map {g : Expr → Expr} {k : Nat}
    (hg : ∀ e, (g e).nodeCount = e.nodeCount + k) (es : List Expr) :
    listNodeCount (es.map g) = listNodeCount es + es.length * k := by
  induction es with
  | nil => simp [listNodeCount]
  | cons e es ih =>
      rw [List.map_cons, listNodeCount, listNodeCount, hg, ih, List.length_cons, Nat.succ_mul]
      omega

end Expr

/-! ## What a step adds -/

namespace Dialect

open EventQuery.Expr

theorem likeOperand_nodeCount (e : Expr) : (likeOperand e).nodeCount = e.nodeCount := by
  rw [likeOperand_eq]
  split
  · rename_i s hs
    rw [eq_of_kind_text hs]
    rfl
  · rfl

theorem patternTest_nodeCount (op : LookupOp) (field pattern : Expr) :
    (patternTest op field pattern).nodeCount = pattern.nodeCount + (field.nodeCount + 1) := by
  cases op <;> simp only [patternTest, nodeCount, listNodeCount, likeOperand_nodeCount] <;> omega

theorem negateIf_nodeCount_le (negated : Bool) (e : Expr) :
    (negateIf negated e).nodeCount ≤ e.nodeCount + 1 := by
  cases negated <;> simp [negateIf, nodeCount, listNodeCount, Nat.add_comm]

/-- An operator over one node, in terms of the operands of a lookup. -/
theorem binary_nodeCount_le {op : String} {left right t : Expr} (hleft : left.nodeCount = 1)
    (h : binary op left right = .ok t) :
    t.nodeCount ≤ 3 * (operands right).length + listNodeCount (operands right) + 4 := by
  have hright : right.nodeCount ≤ listNodeCount (operands right) + 1 := by
    cases right <;> simp only [operands, nodeCount, listNodeCount] <;> omega
  rcases binary_cases h with ⟨sqlOp, -, rfl⟩ | ⟨negated, rfl⟩ | ⟨negated, items, rfl, rfl⟩ |
    ⟨negated, op, chain, rfl, hchain⟩
  · rw [nodeCount]
    omega
  · simp only [nodeCount]
    omega
  · have hlower := listNodeCount_map (g := lower) (k := 1)
      (fun e => by simp [lower, nodeCount, listNodeCount, Nat.add_comm]) items
    simp only [operands, nodeCount, lower, listNodeCount] at hlower ⊢
    omega
  · have htests := listNodeCount_map (patternTest_nodeCount op left) (operands right)
    have hsize := orChain?_nodeCount hchain
    have hnot := negateIf_nodeCount_le negated chain
    rw [htests, hleft, List.length_map] at hsize
    omega

theorem lowerTwo_nodeCount_le (args : List Expr) :
    listNodeCount (lowerTwo args) ≤ listNodeCount args + 2 * args.length := by
  match args with
  | [] => exact Nat.le_refl _
  | [_] | _ :: _ :: _ =>
      simp only [lowerTwo, lower, nodeCount, listNodeCount, List.length_cons]
      omega

/-- The chain of tests of an address has a copy of it for each range. -/
theorem cidrCall?_nodeCount {address t : Expr} {ranges : List Expr}
    (h : cidrCall? (address :: ranges) = some t) :
    t.nodeCount + 1 = listNodeCount ranges + ranges.length * (address.nodeCount + 2) := by
  have htests := listNodeCount_map (g := fun range => .call "isIPAddressInRange" [address, range])
    (k := address.nodeCount + 1)
    (fun e => by simp only [nodeCount, listNodeCount]; omega) ranges
  have hsize := orChain?_nodeCount h
  rw [htests, List.length_map] at hsize
  rw [hsize, Nat.mul_succ, Nat.mul_succ, Nat.mul_succ]
  omega

/-- A call adds at most two nodes per argument, or it is the test of an
address in several ranges. -/
theorem call_nodeCount_le {f : CallName} {args : List Expr} {t : Expr}
    (h : call f.text args = .ok t) :
    t.nodeCount ≤ listNodeCount args + 2 * args.length + 1 ∨
      f.builtin = .cidrMatch ∧ ∃ address ranges, args = address :: ranges ∧ 2 ≤ ranges.length ∧
        t.nodeCount + 1 = listNodeCount ranges + ranges.length * (address.nodeCount + 2) := by
  obtain ⟨hvariant, -, htarget⟩ := call_text_eq_ok h
  have hargs : listNodeCount (if f.insensitive then lowerTwo args else args) ≤
      listNodeCount args + 2 * args.length := by
    split
    · exact lowerTwo_nodeCount_le args
    · exact Nat.le_add_right _ _
  rcases target_cases htarget with ⟨name, -, rfl⟩ | ⟨op, left, right, -, hoperands, rfl⟩ |
    ⟨address, ranges, hf, hoperands, hchain⟩
  · left
    rw [nodeCount]
    omega
  · left
    rw [hoperands] at hargs
    simp only [nodeCount, listNodeCount] at hargs ⊢
    omega
  · have hsensitive : ¬ f.insensitive = true := by
      intro hinsensitive
      have hcidr := hvariant hinsensitive
      rw [hf] at hcidr
      cases hcidr
    rw [if_neg hsensitive] at hoperands
    subst hoperands
    have hsize := cidrCall?_nodeCount hchain
    by_cases hlength : 2 ≤ ranges.length
    · exact .inr ⟨hf, address, ranges, rfl, hlength, hsize⟩
    · left
      have hone : ranges.length * (address.nodeCount + 2) ≤ 1 * (address.nodeCount + 2) :=
        Nat.mul_le_mul_right _ (by omega)
      rw [listNodeCount]
      omega

end Dialect

/-! ## Copied arguments -/

/-- With several ranges a test of an address copies the address. -/
def CallName.copies (f : CallName) (count : Nat) : Bool :=
  decide (f.builtin = .cidrMatch ∧ 2 < count)

/-- The argument that a call copies. -/
def CallName.copied? (f : CallName) (args : List Value) : Option Value :=
  if f.copies args.length then args.head? else none

def Node.copied? : Node → Option Value
  | .value (.call f args) => f.copied? args
  | .condition (.call f args) => f.copied? args
  | .condition (.notCall f args) => f.copied? args
  | _ => none

/-- The arguments that the calls of a query copy. -/
def SimpleQuery.copied (q : SimpleQuery) : List Value := q.nodes.filterMap Node.copied?

namespace Value

mutual

/-- How deep copied arguments stand in copied arguments. -/
def copyDepth : Value → Nat
  | .null => 0
  | .literal _ => 0
  | .field _ => 0
  | .call f args => listCopyDepth (f.copies args.length) args
  | .group v => v.copyDepth
  | .arith _ left right => max left.copyDepth right.copyDepth

/-- The same for arguments, the first of which may be copied. -/
def listCopyDepth (copied : Bool) : List Value → Nat
  | [] => 0
  | v :: vs => max (v.copyDepth + copied.toNat) (listCopyDepth false vs)

end

theorem copyDepth_le_listCopyDepth {v : Value} {vs : List Value} (h : v ∈ vs) (copied : Bool) :
    v.copyDepth ≤ listCopyDepth copied vs := by
  induction vs generalizing copied with
  | nil => cases h
  | cons w vs ih =>
      rw [listCopyDepth]
      rcases List.mem_cons.mp h with rfl | h
      · omega
      · have htail := ih h false
        omega

theorem copyDepth_lt_of_copied {f : CallName} {args : List Value} {a : Value}
    (h : f.copied? args = some a) : a ∈ args ∧ a.copyDepth < (Value.call f args).copyDepth := by
  unfold CallName.copied? at h
  split at h
  · rename_i hcopies
    obtain ⟨rest, rfl⟩ := List.head?_eq_some_iff.mp h
    refine ⟨List.mem_cons_self, ?_⟩
    rw [copyDepth, hcopies, listCopyDepth, Bool.toNat_true]
    omega
  · cases h

end Value

def LookupTarget.copyDepth : LookupTarget → Nat
  | .list _ => 0
  | .value v => v.copyDepth

def Condition.copyDepth : Condition → Nat
  | .boolean _ => 0
  | .not c => c.copyDepth
  | .group c => c.copyDepth
  | .comparison _ left right => max left.copyDepth right.copyDepth
  | .lookup _ _ _ target => target.copyDepth
  | .call f args => (Value.call f args).copyDepth
  | .notCall f args => (Value.call f args).copyDepth
  | .logical _ left right => max left.copyDepth right.copyDepth

def SimpleQuery.copyDepth (q : SimpleQuery) : Nat := (q.condition.map Condition.copyDepth).getD 0

/-! ## Growth by a factor -/

section

variable (namer : Namer) (b : Nat)

open EventQuery.Expr

/-- The tree grows by a factor of at most `b + 4`. The rest of `b + 3` pays
for a copy of an argument of `b` nodes with its test. -/
def Expr.GrowsWithin (e : Expr) : Prop :=
  (e.translated namer).result.nodeCount + (b + 3) ≤ (b + 4) * e.nodeCount

/-- What becomes of the arguments that the nodes copy has at most `b`
nodes. -/
def CopiesWithin (ns : List Node) : Prop :=
  ∀ n ∈ ns, ∀ a, n.copied? = some a → (a.expr.translated namer).result.nodeCount ≤ b

variable {namer b}

namespace Expr.GrowsWithin

theorem of_le_one {e : Expr} (h : (e.translated namer).result.nodeCount ≤ 1) :
    e.GrowsWithin namer b := by
  have hpos : (b + 4) * 1 ≤ (b + 4) * e.nodeCount := Nat.mul_le_mul_left _ e.nodeCount_pos
  unfold GrowsWithin
  omega

theorem le {e : Expr} (h : e.GrowsWithin namer b) :
    (e.translated namer).result.nodeCount ≤ (b + 4) * e.nodeCount :=
  Nat.le_trans (Nat.le_add_right _ _) h

theorem list {es : List Expr} (h : ∀ e ∈ es, e.GrowsWithin namer b) :
    listNodeCount (es.map fun e => (e.translated namer).result) + es.length * (b + 3) ≤
      (b + 4) * listNodeCount es := by
  induction es with
  | nil => simp [listNodeCount]
  | cons e es ih =>
      obtain ⟨he, hes⟩ := List.forall_mem_cons.mp h
      have htail := ih hes
      unfold GrowsWithin at he
      rw [List.map_cons, listNodeCount, listNodeCount, List.length_cons, Nat.succ_mul,
        Nat.mul_add (b + 4)]
      omega

theorem group {e : Expr} (h : e.GrowsWithin namer b) : (Expr.group e).GrowsWithin namer b := by
  unfold GrowsWithin at h ⊢
  have hsize : ((Expr.group e).translated namer).result.nodeCount =
      1 + (e.translated namer).result.nodeCount := rfl
  rw [hsize, nodeCount, Nat.mul_add]
  omega

theorem not {e : Expr} (h : e.GrowsWithin namer b) :
    (Expr.unary "not" [e]).GrowsWithin namer b := by
  unfold GrowsWithin at h ⊢
  rw [translated_not]
  simp only [nodeCount, listNodeCount, Nat.mul_add] at h ⊢
  omega

/-- An operator that stays one. -/
theorem operator {op sqlOp : String} {left right : Expr} (hl : left.GrowsWithin namer b)
    (hr : right.GrowsWithin namer b)
    (h : ((Expr.binary op left right).translated namer).result =
      .binary sqlOp (left.translated namer).result (right.translated namer).result) :
    (Expr.binary op left right).GrowsWithin namer b := by
  unfold GrowsWithin at hl hr ⊢
  rw [h]
  simp only [nodeCount, Nat.mul_add] at hl hr ⊢
  omega

/-- A call grows within the factor if its arguments do, and if the one that
it copies becomes small. -/
theorem call {f : CallName} {args : List Expr} (hargs : ∀ e ∈ args, e.GrowsWithin namer b)
    (hcopied : ∀ a ranges, f.builtin = .cidrMatch → args = a :: ranges → 2 ≤ ranges.length →
      (a.translated namer).result.nodeCount ≤ b) :
    (Expr.call f.text args).GrowsWithin namer b := by
  cases ht : Dialect.call f.text (args.map fun e => (e.translated namer).result) with
  | error x =>
      refine of_le_one (Nat.le_of_eq ?_)
      rw [translated_call, Mapped.finish, Dialect.step, ht, nodeCount]
  | ok t =>
      unfold GrowsWithin
      rw [translated_call, Mapped.finish, Dialect.step, ht, nodeCount, Nat.mul_add]
      rcases Dialect.call_nodeCount_le ht with hsize | ⟨hf, address, ranges, hcons, hcount, hsize⟩
      · -- the rest of each argument pays for the two nodes that it may get
        have hlist := list hargs
        have hlength : args.length * 2 ≤ args.length * (b + 3) := Nat.mul_le_mul_left _ (by omega)
        rw [List.length_map] at hsize
        dsimp only
        omega
      · -- the rest of each range pays for its copy of the address
        obtain ⟨a, rest, rfl, rfl, rfl⟩ := List.map_eq_cons_iff.mp hcons
        rw [List.length_map] at hsize hcount
        have hlist := list (List.forall_mem_cons.mp hargs).2
        have hcopies : rest.length * ((a.translated namer).result.nodeCount + 2) ≤
            rest.length * (b + 3) :=
          Nat.mul_le_mul_left _ (by have ha := hcopied a rest hf rfl hcount; omega)
        rw [listNodeCount, Nat.mul_add (b + 4) a.nodeCount]
        dsimp only
        omega

end Expr.GrowsWithin

/-! ### Values and conditions -/

theorem Field.nodeCount_translated (f : Field) :
    (f.expr.translated namer).result.nodeCount = 1 := by
  rw [Field.expr, translated_symbol]
  cases namer f.name <;> rfl

theorem Field.growsWithin (f : Field) : f.expr.GrowsWithin namer b :=
  .of_le_one (Nat.le_of_eq f.nodeCount_translated)

theorem Value.call_growsWithin {f : CallName} {args : List Value}
    (hargs : ∀ v ∈ args, v.expr.GrowsWithin namer b)
    (hcopied : ∀ a, f.copied? args = some a → (a.expr.translated namer).result.nodeCount ≤ b) :
    (Expr.call f.text (exprs args)).GrowsWithin namer b := by
  rw [exprs_eq_map]
  refine .call (List.forall_mem_map.mpr hargs) ?_
  intro address ranges hf hcons hcount
  obtain ⟨a, rest, rfl, rfl, rfl⟩ := List.map_eq_cons_iff.mp hcons
  rw [List.length_map] at hcount
  refine hcopied a (if_pos (decide_eq_true ⟨hf, ?_⟩))
  rw [List.length_cons]
  omega

theorem Value.growsWithin {v : Value} (h : CopiesWithin namer b v.nodes) :
    v.expr.GrowsWithin namer b := by
  induction v with
  | null => exact .of_le_one (Nat.le_refl 1)
  | literal l =>
      refine .of_le_one ?_
      rw [expr, l.translated_expr]
      cases l <;> exact Nat.le_refl 1
  | field f => exact f.growsWithin
  | group v ih => exact (ih (List.forall_mem_append.mp h).1).group
  | arith op left right ihl ihr =>
      obtain ⟨hl, hr⟩ := List.forall_mem_append.mp (List.forall_mem_append.mp h).1
      exact .operator (ihl hl) (ihr hr) (congrArg Mapped.result (translated_arith namer op _ _))
  | call f args ih =>
      obtain ⟨hargs, hcall⟩ := List.forall_mem_append.mp h
      rw [listNodes_eq_flatMap] at hargs
      refine call_growsWithin (fun v hv => ih v hv ?_) (hcall _ List.mem_cons_self)
      exact fun n hn => hargs n (List.mem_flatMap_of_mem hv hn)

theorem Value.list_growsWithin {vs : List Value} (h : CopiesWithin namer b (listNodes vs)) :
    ∀ v ∈ vs, v.expr.GrowsWithin namer b := by
  rw [listNodes_eq_flatMap] at h
  exact fun v hv => growsWithin fun n hn => h n (List.mem_flatMap_of_mem hv hn)

/-- A lookup over a field, which is one node. -/
theorem Field.lookup_growsWithin {field : Field} {op : String} {right : Expr}
    (h : 3 * (Dialect.operands (right.translated namer).result).length +
      listNodeCount (Dialect.operands (right.translated namer).result) + (b + 3) ≤
        (b + 4) * right.nodeCount + 3) :
    (Expr.binary op field.expr right).GrowsWithin namer b := by
  cases ht : Dialect.binary op (field.expr.translated namer).result
      (right.translated namer).result with
  | error x =>
      refine .of_le_one (Nat.le_of_eq ?_)
      rw [translated_binary, Mapped.finish, Dialect.step, ht, nodeCount]
  | ok t =>
      have hsize := Dialect.binary_nodeCount_le field.nodeCount_translated ht
      unfold GrowsWithin
      rw [translated_binary, Mapped.finish, Dialect.step, ht, Field.expr]
      simp only [nodeCount, Nat.mul_add]
      omega

theorem Literal.listNodeCount_exprs (items : List Literal) :
    listNodeCount (items.map Literal.expr) = items.length := by
  induction items with
  | nil => rfl
  | cons l items ih =>
      have hl : l.expr.nodeCount = 1 := by cases l <;> rfl
      rw [List.map_cons, listNodeCount, hl, ih, List.length_cons, Nat.add_comm]

theorem LookupTarget.growsWithin {target : LookupTarget} (field : Field) (op : String)
    (h : CopiesWithin namer b target.nodes) :
    (Expr.binary op field.expr target.expr).GrowsWithin namer b := by
  refine field.lookup_growsWithin ?_
  cases target with
  | value v =>
      have hv := Value.growsWithin h
      unfold GrowsWithin at hv
      rw [LookupTarget.expr, Dialect.operands_of_ne_array (v.translated_ne_array namer)]
      simp only [listNodeCount, List.length_cons, List.length_nil]
      omega
  | list items =>
      have hitems : 4 * items.length ≤ (b + 4) * items.length :=
        Nat.mul_le_mul_right _ (Nat.le_add_left _ _)
      rw [translated_list, LookupTarget.expr, Dialect.operands, nodeCount,
        Literal.listNodeCount_exprs, List.length_map, Nat.mul_add (b + 4)]
      omega

theorem Condition.growsWithin {c : Condition} (h : CopiesWithin namer b c.nodes) :
    c.expr.GrowsWithin namer b := by
  induction c with
  | boolean raw => exact .of_le_one (Nat.le_refl 1)
  | not c ih => exact (ih (List.forall_mem_append.mp h).1).not
  | group c ih => exact (ih (List.forall_mem_append.mp h).1).group
  | comparison op left right =>
      obtain ⟨hl, hr⟩ := List.forall_mem_append.mp (List.forall_mem_append.mp h).1
      exact .operator (Value.growsWithin hl) (Value.growsWithin hr)
        (congrArg Mapped.result (translated_compare namer op _ _))
  | lookup field negated op target =>
      have htarget := (List.forall_mem_append.mp (List.forall_mem_cons.mp h).2).1
      exact LookupTarget.growsWithin field _ htarget
  | call f args =>
      obtain ⟨hargs, hcall⟩ := List.forall_mem_append.mp h
      exact Value.call_growsWithin (Value.list_growsWithin hargs) (hcall _ List.mem_cons_self)
  | notCall f args =>
      obtain ⟨hargs, hcall⟩ := List.forall_mem_append.mp h
      exact (Value.call_growsWithin (Value.list_growsWithin hargs) (hcall _ List.mem_cons_self)).not
  | logical op left right ihl ihr =>
      obtain ⟨hl, hr⟩ := List.forall_mem_append.mp (List.forall_mem_append.mp h).1
      obtain ⟨sqlOp, hop⟩ := translated_logic namer op
      exact .operator (ihl hl) (ihr hr) (congrArg Mapped.result (hop _ _))

theorem Category.growsWithin (categoryField text : String) :
    (Expr.binary "==" (.symbol categoryField) (.string text)).GrowsWithin namer b := by
  exact .operator (Field.growsWithin ⟨categoryField, false⟩) (.of_le_one (Nat.le_refl 1))
    (congrArg Mapped.result (translated_compare namer .eq _ _))

theorem SimpleQuery.growsWithin {q : SimpleQuery} {categoryField : String} {e : Expr}
    (he : q.expr? categoryField = some e) (h : CopiesWithin namer b q.nodes) :
    e.GrowsWithin namer b := by
  rcases expr?_cases he with ⟨c, text, hc, -, rfl⟩ | ⟨c, hc, -, rfl⟩ | ⟨text, -, -, rfl⟩
  · rw [SimpleQuery.nodes, hc] at h
    obtain ⟨sqlOp, hop⟩ := translated_logic namer .and
    exact .operator (Condition.growsWithin h) (Category.growsWithin categoryField text)
      (congrArg Mapped.result (hop _ _))
  · rw [SimpleQuery.nodes, hc] at h
    exact Condition.growsWithin h
  · exact Category.growsWithin categoryField text

end

/-! ## Growth by depth -/

/-- The copied arguments are nested less than `d` deep and have at most `n`
nodes. -/
def Shallow (d n : Nat) (ns : List Node) : Prop :=
  ∀ node ∈ ns, ∀ a, node.copied? = some a → a.copyDepth < d ∧ a.expr.nodeCount ≤ n

namespace Shallow

variable {d d' n n' : Nat} {ns ns' : List Node} {node : Node}

theorem mono (h : Shallow d n ns) (hd : d ≤ d') (hn : n ≤ n') : Shallow d' n' ns :=
  fun node hnode a ha => (h node hnode a ha).imp (Nat.lt_of_lt_of_le · hd) (Nat.le_trans · hn)

theorem append (h : Shallow d n ns) (h' : Shallow d n ns') : Shallow d n (ns ++ ns') :=
  List.forall_mem_append.mpr ⟨h, h'⟩

theorem single (h : node.copied? = none) : Shallow d n [node] := by
  intro node' hnode a ha
  rw [List.mem_singleton.mp hnode, h] at ha
  cases ha

end Shallow

theorem Value.call_shallow {f : CallName} {args : List Value} {node : Node}
    (hargs : ∀ a ∈ args, Shallow a.copyDepth a.expr.nodeCount a.nodes)
    (hnode : node.copied? = f.copied? args) :
    Shallow (Value.call f args).copyDepth (Value.call f args).expr.nodeCount
      (listNodes args ++ [node]) := by
  have hsize : ∀ a ∈ args, a.expr.nodeCount ≤ (Value.call f args).expr.nodeCount := by
    intro a ha
    rw [expr, Expr.nodeCount, exprs_eq_map]
    exact Nat.le_trans (Expr.nodeCount_le_of_mem (List.mem_map_of_mem ha)) (Nat.le_add_left _ _)
  refine .append ?_ ?_
  · rw [listNodes_eq_flatMap]
    refine List.forall_mem_flatMap.mpr fun a ha => ?_
    exact (hargs a ha).mono (copyDepth_le_listCopyDepth ha _) (hsize a ha)
  · intro node' hmem a ha
    rw [List.mem_singleton.mp hmem, hnode] at ha
    obtain ⟨hmem, hlt⟩ := copyDepth_lt_of_copied ha
    exact ⟨hlt, hsize a hmem⟩

theorem Value.nodes_shallow (v : Value) : Shallow v.copyDepth v.expr.nodeCount v.nodes := by
  induction v with
  | null | literal | field => exact .single rfl
  | group v ih => exact (ih.mono (Nat.le_refl _) (Nat.le_add_left _ _)).append (.single rfl)
  | arith op left right ihl ihr =>
      refine .append (.append (ihl.mono ?_ ?_) (ihr.mono ?_ ?_)) (.single rfl)
      all_goals simp only [copyDepth, expr, Expr.nodeCount]; omega
  | call f args ih => exact call_shallow ih rfl

theorem LookupTarget.nodes_shallow (target : LookupTarget) :
    Shallow target.copyDepth target.expr.nodeCount target.nodes := by
  cases target with
  | value v => exact v.nodes_shallow
  | list items =>
      intro node hnode a ha
      obtain ⟨l, -, rfl⟩ := List.mem_map.mp hnode
      cases ha

theorem Condition.nodes_shallow (c : Condition) : Shallow c.copyDepth c.expr.nodeCount c.nodes := by
  induction c with
  | boolean => exact .single rfl
  | group c ih => exact (ih.mono (Nat.le_refl _) (Nat.le_add_left _ _)).append (.single rfl)
  | not c ih =>
      refine (ih.mono (Nat.le_refl _) ?_).append (.single rfl)
      simp only [expr, Expr.nodeCount, Expr.listNodeCount]
      omega
  | comparison op left right =>
      refine .append (.append (left.nodes_shallow.mono ?_ ?_) (right.nodes_shallow.mono ?_ ?_))
        (.single rfl)
      all_goals simp only [copyDepth, expr, Expr.nodeCount]; omega
  | lookup field negated op target =>
      refine .append (.append (.single rfl) (target.nodes_shallow.mono (Nat.le_refl _) ?_))
        (.single rfl)
      simp only [expr, Expr.nodeCount]
      omega
  | call f args => exact Value.call_shallow (fun a _ => a.nodes_shallow) rfl
  | notCall f args =>
      refine (Value.call_shallow (fun a _ => a.nodes_shallow) rfl).mono (Nat.le_refl _) ?_
      simp only [expr, Value.expr, Expr.nodeCount, Expr.listNodeCount]
      omega
  | logical op left right ihl ihr =>
      refine .append (.append (ihl.mono ?_ ?_) (ihr.mono ?_ ?_)) (.single rfl)
      all_goals simp only [copyDepth, expr, Expr.nodeCount]; omega

theorem SimpleQuery.nodes_shallow {q : SimpleQuery} {categoryField : String} {e : Expr}
    (he : q.expr? categoryField = some e) : Shallow q.copyDepth e.nodeCount q.nodes := by
  unfold SimpleQuery.copyDepth SimpleQuery.nodes
  rcases expr?_cases he with ⟨c, text, hc, -, rfl⟩ | ⟨c, hc, -, rfl⟩ | ⟨text, hc, -, rfl⟩
  · rw [hc]
    refine c.nodes_shallow.mono (Nat.le_refl _) ?_
    rw [Expr.nodeCount]
    omega
  · rw [hc]
    exact c.nodes_shallow
  · rw [hc]
    intro node hnode
    cases hnode

section

variable {namer : Namer}

/-- If copied arguments grow by their depth, so does what copies them. -/
theorem Expr.nodeCount_le_of_shallow {e : Expr} {ns : List Node} {d : Nat}
    (hcopies : Shallow d e.nodeCount ns)
    (hgrows : ∀ b, CopiesWithin namer b ns → e.GrowsWithin namer b)
    (ih : ∀ v : Value, v.copyDepth < d → (v.expr.translated namer).result.nodeCount ≤
      4 * v.expr.nodeCount * (2 * v.expr.nodeCount) ^ v.copyDepth) :
    (e.translated namer).result.nodeCount ≤ 4 * e.nodeCount * (2 * e.nodeCount) ^ d := by
  have hpos := e.nodeCount_pos
  cases d with
  | zero =>
      have hnone : CopiesWithin namer 0 ns := fun node hnode a ha =>
        absurd (hcopies node hnode a ha).1 (Nat.not_lt_zero _)
      simpa using (hgrows 0 hnone).le
  | succ d =>
      have hsmall : CopiesWithin namer (4 * e.nodeCount * (2 * e.nodeCount) ^ d) ns := by
        intro node hnode a ha
        obtain ⟨hdepth, hsize⟩ := hcopies node hnode a ha
        calc (a.expr.translated namer).result.nodeCount
            ≤ 4 * a.expr.nodeCount * (2 * a.expr.nodeCount) ^ a.copyDepth := ih a hdepth
          _ ≤ 4 * e.nodeCount * (2 * e.nodeCount) ^ a.copyDepth := by gcongr
          _ ≤ 4 * e.nodeCount * (2 * e.nodeCount) ^ d := by
              gcongr
              · omega
              · omega
      have hpow : 1 ≤ e.nodeCount * (2 * e.nodeCount) ^ d :=
        Nat.mul_pos hpos (Nat.pow_pos (by omega))
      calc (e.translated namer).result.nodeCount
          ≤ (4 * e.nodeCount * (2 * e.nodeCount) ^ d + 4) * e.nodeCount := (hgrows _ hsmall).le
        _ = 4 * e.nodeCount * (e.nodeCount * (2 * e.nodeCount) ^ d + 1) := by ring
        _ ≤ 4 * e.nodeCount * (e.nodeCount * (2 * e.nodeCount) ^ d +
              e.nodeCount * (2 * e.nodeCount) ^ d) := by gcongr
        _ = 4 * e.nodeCount * (2 * e.nodeCount) ^ (d + 1) := by ring

theorem Value.nodeCount_le_of_copyDepth (v : Value) : (v.expr.translated namer).result.nodeCount ≤
    4 * v.expr.nodeCount * (2 * v.expr.nodeCount) ^ v.copyDepth := by
  -- a copied argument may stand anywhere in `v`, but it is nested less deep
  induction hd : v.copyDepth using Nat.strong_induction_on generalizing v with
  | _ d ih =>
      refine Expr.nodeCount_le_of_shallow (hd ▸ v.nodes_shallow) (fun _ => growsWithin) ?_
      exact fun w hw => ih _ hw w rfl

end

/-! ## The headline theorem -/

/-- **Growth of a query.** What the dialect makes of a query that copies no
argument has at most four times as many nodes. With copies nested to a
depth, the number of nodes enters once more for each level. If what becomes
of the copied arguments has at most `b` nodes, the factor is `b + 4`. -/
theorem nodeCount_toDialect_le {text categoryField : String} {e : Expr}
    (h : lowerText text categoryField = .ok (some e)) :
    ∃ q, parse text = .ok ⟨.simple q, []⟩ ∧ q.expr? categoryField = some e ∧
      e.toDialect.result.nodeCount ≤ 4 * e.nodeCount * (2 * e.nodeCount) ^ q.copyDepth ∧
      ∀ b, (∀ a ∈ q.copied, a.expr.toDialect.result.nodeCount ≤ b) →
        e.toDialect.result.nodeCount ≤ (b + 4) * e.nodeCount := by
  obtain ⟨q, hparse, -, he⟩ := lowerText_eq_ok_iff.mp h
  refine ⟨q, hparse, he.symm, ?_, fun b hcopies => ?_⟩
  · rw [← e.translated_identity]
    exact Expr.nodeCount_le_of_shallow (SimpleQuery.nodes_shallow he.symm)
      (fun _ => SimpleQuery.growsWithin he.symm) (fun v _ => v.nodeCount_le_of_copyDepth)
  · rw [← e.translated_identity]
    refine (SimpleQuery.growsWithin he.symm fun node hnode a ha => ?_).le
    rw [a.expr.translated_identity]
    exact hcopies a (List.mem_filterMap.mpr ⟨node, hnode, ha⟩)

/-- A test of an address in the place of an address: the inner test, with its
seven nodes, is copied. -/
theorem nodeCount_toDialect_le_twice :
    ∃ e, lowerText "any where cidrMatch(cidrMatch(a, \"x\", \"y\"), \"x\", \"y\")"
        "event.category" = .ok (some e) ∧
      e.toDialect.result.nodeCount ≤ 4 * e.nodeCount * (2 * e.nodeCount) ^ 2 ∧
      e.toDialect.result.nodeCount ≤ (7 + 4) * e.nodeCount := by
  have hread : parse "any where cidrMatch(cidrMatch(a, \"x\", \"y\"), \"x\", \"y\")" =
      .ok ⟨.simple ⟨.any, some (.call ⟨.cidrMatch, false⟩
        [.call ⟨.cidrMatch, false⟩ [.field ⟨"a", false⟩, .literal (.string "\"x\""),
          .literal (.string "\"y\"")], .literal (.string "\"x\""),
          .literal (.string "\"y\"")])⟩, []⟩ := parse_of_finish rfl rfl
  have hlower : lowerText _ "event.category" = _ := lowerText_eq_ok_iff.mpr ⟨_, hread, rfl, rfl⟩
  obtain ⟨q, hparse, -, hdepth, hfactor⟩ := nodeCount_toDialect_le hlower
  cases hread.symm.trans hparse
  exact ⟨_, hlower, hdepth, hfactor 7 (by decide)⟩

/-! ## No factor for all queries

In the family `Value.nested` each test of an address stands in the place of
the address of the next one. A test adds three nodes to the query, and what
becomes of it holds what becomes of its address twice. -/

namespace Value

def nested : Nat → Value
  | 0 => .field ⟨"a", false⟩
  | n + 1 => .call ⟨.cidrMatch, false⟩
      [nested n, .literal (.string "\"x\""), .literal (.string "\"y\"")]

theorem nested_wellFormed (n : Nat) : (nested n).WellFormed := by
  induction n with
  | zero =>
      have hident : IsIdent "a" := by decide
      exact hident
  | succ n ih =>
      have hname : (⟨.cidrMatch, false⟩ : CallName).Canonical :=
        ⟨.cidrMatch, by decide, .inl rfl⟩
      have hx : IsStringToken "\"x\"".toList :=
        .quoted (.plain (by decide) (by decide) .nil : QuotedBody ['x'])
      have hy : IsStringToken "\"y\"".toList :=
        .quoted (.plain (by decide) (by decide) .nil : QuotedBody ['y'])
      exact ⟨hname, nofun, ih, hx, hy, trivial⟩

theorem nested_faults (n : Nat) : (nested n).faults = [] := by
  induction n with
  | zero => rfl
  | succ n ih =>
      rw [nested, faults, listFaults, ih]
      rfl

theorem nested_nodeCount (n : Nat) : (nested n).expr.nodeCount = 3 * n + 1 := by
  induction n with
  | zero => rfl
  | succ n ih =>
      simp only [nested, expr, exprs, Literal.expr, Expr.string, Expr.nodeCount,
        Expr.listNodeCount, ih]
      omega

theorem nested_toDialect (n : Nat) :
    (nested n).expr.toDialect.result.nodeCount + 5 = 6 * 2 ^ n := by
  induction n with
  | zero => rfl
  | succ n ih =>
      have hcall : (nested (n + 1)).expr.toDialect.result =
          .binary "OR"
            (.call "isIPAddressInRange" [(nested n).expr.toDialect.result, .string "x"])
            (.call "isIPAddressInRange" [(nested n).expr.toDialect.result, .string "y"]) := rfl
      rw [hcall, Nat.pow_succ]
      simp only [Expr.nodeCount, Expr.listNodeCount, Expr.string]
      omega

theorem exists_lowerText_nested (n : Nat) :
    ∃ text, lowerText text "event.category" = .ok (some (nested (n + 1)).expr) := by
  have hwellFormed : Query.WellFormed ⟨.simple ⟨.any, some (.call ⟨.cidrMatch, false⟩
      [nested n, .literal (.string "\"x\""), .literal (.string "\"y\"")])⟩, []⟩ := by
    refine ⟨⟨trivial, ?_⟩, nofun⟩
    rintro c ⟨⟩
    exact nested_wellFormed (n + 1)
  obtain ⟨text, hparse⟩ := exists_parse_eq hwellFormed
  exact ⟨text, lowerText_eq_ok_iff.mpr ⟨_, hparse, nested_faults (n + 1), rfl⟩⟩

end Value

/-- The size of what the dialect makes of a query is not linear in the size of
the query. -/
theorem not_nodeCount_toDialect_linear :
    ¬ ∃ factor, ∀ text categoryField e, lowerText text categoryField = .ok (some e) →
      e.toDialect.result.nodeCount ≤ factor * e.nodeCount := by
  rintro ⟨factor, hfactor⟩
  obtain ⟨text, htext⟩ := Value.exists_lowerText_nested (2 * factor)
  have hle := hfactor text _ _ htext
  have hsize := Value.nested_toDialect (2 * factor + 1)
  have hpow : factor + 1 ≤ 2 ^ factor := Nat.lt_two_pow_self
  have hsquare : (factor + 1) * (factor + 1) ≤ 2 ^ factor * 2 ^ factor := Nat.mul_le_mul hpow hpow
  rw [Value.nested_nodeCount] at hle
  have hnodes : factor * (3 * (2 * factor + 1) + 1) = 6 * (factor * factor) + 4 * factor := by ring
  have hdouble : 2 ^ (2 * factor + 1) = 2 * (2 ^ factor * 2 ^ factor) := by ring
  have hexpand : (factor + 1) * (factor + 1) = factor * factor + 2 * factor + 1 := by ring
  omega

end EventQuery
