import EventQuery.Expr.Dialect
import EventQuery.Expr.Lower

/-!
# What a step of the dialect makes

The dialect rewrites one node at a time. Here is said, once for every
operator and function, which trees a step can make: `binary_cases` and
`call_cases` list them for nodes with any name, `binary_lookup` and
`call_text_eq_ok` single out the names that a query writes, and
`step_isCompound` says what they have in common. Facts about the results
of the dialect are derived from these lists and need not open the
definitions again.
-/

namespace EventQuery

theorem Expr.orChain?_cons_cons (e₁ e₂ : Expr) (es : List Expr) :
    orChain? (e₁ :: e₂ :: es) = (orChain? (e₂ :: es)).map (.binary "OR" e₁ ·) := rfl

/-- An expression that is no null, no constant and no list. -/
def Expr.isApplied : Expr → Bool
  | .symbol _ | .group _ | .binary .. | .unary .. | .call .. => true
  | .const _ | .null | .array _ | .fault _ => false

/-- An expression with an operator or a function at its root. -/
def Expr.isCompound : Expr → Bool
  | .binary .. | .unary .. | .call .. => true
  | _ => false

theorem Expr.isApplied_of_isCompound {e : Expr} (h : e.isCompound = true) :
    e.isApplied = true := by
  cases e with
  | binary | unary | call => rfl
  | _ => cases h

/-- What holds of the members of a chain and is kept by `OR` holds of the
chain. -/
theorem Expr.orChain?_induct {P : Expr → Prop} {t : Expr}
    (hor : ∀ e chain, P e → P chain → P (.binary "OR" e chain)) :
    ∀ {es : List Expr}, (∀ e ∈ es, P e) → orChain? es = some t → P t
  | [], _, h => by cases h
  | [_], hes, h => by
      cases h
      exact hes t List.mem_cons_self
  | e₁ :: e₂ :: es, hes, h => by
      rw [orChain?_cons_cons] at h
      obtain ⟨tail, htail, rfl⟩ := Option.map_eq_some_iff.mp h
      obtain ⟨he, hes⟩ := List.forall_mem_cons.mp hes
      exact hor e₁ tail he (orChain?_induct hor hes htail)

theorem Expr.orChain?_isCompound {es : List Expr} {t : Expr} (hes : ∀ e ∈ es, e.isCompound = true)
    (h : orChain? es = some t) : t.isCompound = true :=
  orChain?_induct (P := fun e => e.isCompound = true) (fun _ _ _ _ => rfl) hes h

namespace Dialect

/-! ## Lookups -/

/-- The operands of a lookup: the members of a list, or one value. -/
def operands : Expr → List Expr
  | .array items => items
  | single => [single]

theorem operands_of_ne_array {e : Expr} (h : ∀ items, e ≠ .array items) :
    operands e = [e] := by
  cases e with
  | array items => exact absurd rfl (h items)
  | _ => rfl

theorem patternLookup_eq (negated : Bool) (field patterns : Expr) (build : Expr → Expr → Expr) :
    patternLookup negated field patterns build =
      match Expr.orChain? ((operands patterns).map (build field)) with
      | some chain => .ok (negateIf negated chain)
      | none => .error .emptyLookup := by
  cases patterns <;> rfl

theorem inLookup_eq (negated : Bool) (left right : Expr) :
    inLookup negated left right = .binary (inOp negated) left (.array (operands right)) := by
  cases right <;> rfl

/-- A test of one pattern. -/
def patternTest : LookupOp → Expr → Expr → Expr
  | .like, field, pattern => .binary "LIKE" field (likeOperand pattern)
  | .colon, field, pattern => .binary "ILIKE" field (likeOperand pattern)
  | .likeInsensitive, field, pattern => .binary "ILIKE" field (likeOperand pattern)
  | _, field, pattern => .call "match" [field, pattern]

theorem binary_lookup (op : LookupOp) (negated : Bool) (left right : Expr) :
    binary (op.name negated) left right =
      lookup (op.name negated) negated op.token left right := by
  cases op <;> cases negated <;> rfl

/-- What a lookup can become: a membership test, one over lower-cased
operands, or a chain of pattern tests. -/
theorem lookup_cases {op base : String} {negated : Bool} {left right t : Expr}
    (h : lookup op negated base left right = .ok t) :
    t = .binary (inOp negated) left (.array (operands right)) ∨
    (∃ items, right = .array items ∧
      t = .binary (inOp negated) (lower left) (.array (items.map lower))) ∨
    ∃ kind chain, Expr.orChain? ((operands right).map (patternTest kind left)) = some chain ∧
      t = negateIf negated chain := by
  have hpattern : ∀ kind : LookupOp,
      patternLookup negated left right (patternTest kind) = .ok t →
      ∃ kind chain, Expr.orChain? ((operands right).map (patternTest kind left)) = some chain ∧
        t = negateIf negated chain := by
    intro kind h
    rw [patternLookup_eq] at h
    split at h <;> cases h
    rename_i chain hchain
    exact ⟨kind, chain, hchain, rfl⟩
  unfold lookup at h
  split at h
  case h_1 =>
    obtain rfl := Except.ok.inj h
    exact .inl (inLookup_eq _ _ _)
  case h_2 =>
    cases right with
    | array items => exact .inr (.inl ⟨items, rfl, (Except.ok.inj h).symm⟩)
    | _ => cases h
  case h_3 => exact .inr (.inr (hpattern .like h))
  case h_4 => exact .inr (.inr (hpattern .likeInsensitive h))
  case h_5 => exact .inr (.inr (hpattern .colon h))
  case h_6 => exact .inr (.inr (hpattern .regex h))
  case h_7 => exact .inr (.inr (hpattern .regexInsensitive h))
  case h_8 => cases h

/-! ## Operators -/

/-- The SQL operators over two values that need no list. -/
def plainOps : List String :=
  ["AND", "OR", "IS", "=", "IS NOT", "<>"] ++ sharedOps

theorem mem_plainOps {op sqlOp : String} {right : Expr} (h : plainOp? op right = some sqlOp) :
    sqlOp ∈ plainOps := by
  unfold plainOp? at h
  split at h <;> try split at h
  all_goals cases h
  case h_5.isTrue hshared => exact List.mem_append_right _ (List.contains_iff_mem.mp hshared)
  all_goals decide

/-- What an operator can become. -/
theorem binary_cases {op : String} {left right t : Expr} (h : binary op left right = .ok t) :
    (∃ sqlOp ∈ plainOps, t = .binary sqlOp left right) ∨
    (∃ negated, t = .binary (inOp negated) left (.array (operands right))) ∨
    (∃ negated items, right = .array items ∧
      t = .binary (inOp negated) (lower left) (.array (items.map lower))) ∨
    ∃ negated kind chain, t = negateIf negated chain ∧
      Expr.orChain? ((operands right).map (patternTest kind left)) = some chain := by
  unfold binary at h
  split at h
  · rename_i sqlOp hop
    exact .inl ⟨sqlOp, mem_plainOps hop, (Except.ok.inj h).symm⟩
  · rcases lookup_cases h with rfl | ⟨items, rfl, rfl⟩ | ⟨kind, chain, hchain, rfl⟩
    · exact .inr (.inl ⟨_, rfl⟩)
    · exact .inr (.inr (.inl ⟨_, items, rfl, rfl⟩))
    · exact .inr (.inr (.inr ⟨_, kind, chain, rfl, hchain⟩))

theorem binary_isCompound {op : String} {left right t : Expr} (h : binary op left right = .ok t) :
    t.isCompound = true := by
  rcases binary_cases h with ⟨sqlOp, -, rfl⟩ | ⟨negated, rfl⟩ | ⟨negated, items, -, rfl⟩ |
    ⟨negated, kind, chain, rfl, hchain⟩
  · rfl
  · rfl
  · rfl
  · cases negated with
    | true => rfl
    | false =>
        refine Expr.orChain?_isCompound (List.forall_mem_map.mpr fun pattern _ => ?_) hchain
        cases kind <;> rfl

/-- The one operator over one value. -/
theorem unary_cases {op : String} {args : List Expr} {t : Expr} (h : unary op args = .ok t) :
    op = "not" ∧ t = .unary "NOT" args := by
  unfold unary at h
  split at h
  · exact ⟨‹_›, (Except.ok.inj h).symm⟩
  · cases h

/-! ## Functions -/

/-- The functions that SQL knows under a name. -/
def functionName? : Builtin → Option String
  | .concat => some "concat"
  | .endsWith => some "endsWithUTF8"
  | .indexOf => some "position"
  | .length => some "length"
  | .number => some "toFloat"
  | .startsWith => some "startsWithUTF8"
  | .string => some "toString"
  | .stringContains => some "hasSubsequence"
  | .substring => some "substring"
  | _ => none

/-- The functions that SQL writes as operators. -/
def arithOp? : Builtin → Option ArithOp
  | .add => some .add
  | .subtract => some .subtract
  | .multiply => some .multiply
  | .divide => some .divide
  | .modulo => some .modulo
  | _ => none

/-- What a function can become: a call, an operator, or a chain of tests
of a range. -/
theorem target_cases {f : Builtin} {args : List Expr} {t : Expr} (h : target? f args = some t) :
    (∃ name, functionName? f = some name ∧ t = .call name args) ∨
    (∃ op left right, arithOp? f = some op ∧ args = [left, right] ∧
      t = .binary op.token left right) ∨
    ∃ address ranges, f = .cidrMatch ∧ args = address :: ranges ∧
      Expr.orChain? (ranges.map fun range => .call "isIPAddressInRange" [address, range])
        = some t := by
  have hoperator : ∀ op : ArithOp, operatorCall? op.token args = some t →
      ∃ left right, args = [left, right] ∧ t = .binary op.token left right := by
    intro op h
    unfold operatorCall? at h
    split at h <;> cases h
    exact ⟨_, _, rfl, rfl⟩
  cases f with
  | add => exact .inr (.inl ⟨.add, by simpa [arithOp?] using hoperator .add h⟩)
  | subtract => exact .inr (.inl ⟨.subtract, by simpa [arithOp?] using hoperator .subtract h⟩)
  | multiply => exact .inr (.inl ⟨.multiply, by simpa [arithOp?] using hoperator .multiply h⟩)
  | divide => exact .inr (.inl ⟨.divide, by simpa [arithOp?] using hoperator .divide h⟩)
  | modulo => exact .inr (.inl ⟨.modulo, by simpa [arithOp?] using hoperator .modulo h⟩)
  | between => cases h
  | cidrMatch =>
      cases args with
      | nil => cases h
      | cons address ranges => exact .inr (.inr ⟨address, ranges, rfl, rfl, h⟩)
  | _ => exact .inl ⟨_, rfl, (Option.some.inj h).symm⟩

theorem length_lowerTwo (args : List Expr) : (lowerTwo args).length = args.length := by
  match args with
  | [] | [_] | _ :: _ :: _ => rfl

theorem call_cases {name : String} {args : List Expr} {t : Expr} (h : call name args = .ok t) :
    ∃ f insensitive, function? name = some (f, insensitive) ∧ (arity f).accepts args.length ∧
      target? f (if insensitive then lowerTwo args else args) = some t := by
  unfold call at h
  split at h
  · cases h
  · rename_i f insensitive hf
    split at h
    · rename_i hcount
      split at h <;> cases h
      rename_i htarget
      exact ⟨f, insensitive, hf, hcount, htarget⟩
    · cases h

theorem call_isCompound {name : String} {args : List Expr} {t : Expr}
    (h : call name args = .ok t) : t.isCompound = true := by
  obtain ⟨f, insensitive, -, -, htarget⟩ := call_cases h
  rcases target_cases htarget with ⟨name, -, rfl⟩ | ⟨op, left, right, -, -, rfl⟩ |
    ⟨address, ranges, -, -, hchain⟩
  · rfl
  · rfl
  · exact Expr.orChain?_isCompound (List.forall_mem_map.mpr fun range _ => rfl) hchain

/-- An operator or a function becomes an operator or a function. -/
theorem step_isCompound {e t : Expr} (h : e.isCompound = true) (ht : step e = .ok t) :
    t.isCompound = true := by
  cases e with
  | binary op left right => exact binary_isCompound ht
  | unary op args =>
      obtain ⟨-, rfl⟩ := unary_cases ht
      rfl
  | call name args => exact call_isCompound ht
  | _ => cases h

theorem splitTilde_text (f : CallName) : splitTilde f.text = (f.builtin.name, f.insensitive) := by
  obtain ⟨b, insensitive⟩ := f
  cases b <;> cases insensitive <;> rfl

theorem ofName?_name (b : Builtin) : Builtin.ofName? b.name = some b := by
  cases b <;> rfl

theorem function?_text (f : CallName) : function? f.text =
    if f.insensitive && !hasInsensitive f.builtin then none
    else some (f.builtin, f.insensitive) := by
  simp only [function?, splitTilde_text, ofName?_name]

theorem call_text_eq_ok {f : CallName} {args : List Expr} {t : Expr}
    (h : call f.text args = .ok t) :
    (f.insensitive → hasInsensitive f.builtin) ∧ (arity f.builtin).accepts args.length ∧
      target? f.builtin (if f.insensitive then lowerTwo args else args) = some t := by
  obtain ⟨b, insensitive, hf, hcount, htarget⟩ := call_cases h
  rw [function?_text] at hf
  split at hf <;> cases hf
  rename_i hvariant
  refine ⟨fun hinsensitive => ?_, hcount, htarget⟩
  simpa [hinsensitive] using hvariant

end Dialect

end EventQuery
