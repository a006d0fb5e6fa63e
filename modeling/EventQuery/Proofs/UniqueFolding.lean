import EventQuery.Proofs.ParserSoundness

/-!
# The one tree of a sequence

A text gives a flat sequence: terms with arithmetic operators between them,
or terms under runs of `not` with connectives between them. In the parse
tree the sequence is the nodes inside one node. Folding turns it into a
tree, and the tree reads back in order as the sequence.

A sequence is in general the reading of several trees. Of these one is
folded by precedence (`Value.Folded`, `Condition.Folded`), and it is the one
that is built (`folding_unique`).
-/

namespace EventQuery

open Grammar Reader

/-! ## Values -/

namespace Value

/-- The reading of a row whose operands are trees. -/
def readRow (row : List (ArithOp × Value)) : List (ArithOp × Value) :=
  row.flatMap fun x => (x.1, x.2.row.1) :: x.2.row.2

theorem readRow_cons (op : ArithOp) (v : Value) (row : List (ArithOp × Value)) :
    readRow ((op, v) :: row) = (op, v.row.1) :: (v.row.2 ++ readRow row) := rfl

theorem row_foldLeft (row : List (ArithOp × Value)) : ∀ first : Value,
    (foldLeft first row).row = (first.row.1, first.row.2 ++ readRow row) := by
  induction row with
  | nil => exact fun first => by simp [foldLeft, readRow]
  | cons x row ih =>
      obtain ⟨op, v⟩ := x
      intro first
      rw [foldLeft_cons, ih, Value.row, readRow_cons, List.append_assoc, List.cons_append]

/-- Folding the tight operators does not change what is read. -/
theorem row_foldTight {row : List (ArithOp × Value)} (hrow : ∀ x ∈ row, x.2.isArith = false) :
    ∀ first : Value,
      ((foldTight first row).1.row.1,
          (foldTight first row).1.row.2 ++ readRow (foldTight first row).2) =
        (first.row.1, first.row.2 ++ row) := by
  induction row with
  | nil => exact fun first => rfl
  | cons x row ih =>
      obtain ⟨op, v⟩ := x
      obtain ⟨hv, hrow⟩ := List.forall_mem_cons.mp hrow
      intro first
      cases hop : op.isTight with
      | true =>
          rw [foldTight_tight hop, ih hrow, Value.row, row_of_isArith hv, List.append_assoc]
          rfl
      | false =>
          obtain ⟨h1, h2⟩ := Prod.mk.inj (ih hrow v)
          rw [foldTight_loose hop, readRow_cons, h1, h2, row_of_isArith hv]
          rfl

/-- The tree of a row of terms reads as the row. -/
theorem row_ofRow {first : Value} {row : List (ArithOp × Value)} (hfirst : first.isArith = false)
    (hrow : ∀ x ∈ row, x.2.isArith = false) : (ofRow first row).row = (first, row) := by
  rw [ofRow, row_foldLeft, row_foldTight hrow, row_of_isArith hfirst]
  rfl

theorem folded_ofRow {first : Value} {row : List (ArithOp × Value)} (hfirst : first.isArith = false)
    (hrow : ∀ x ∈ row, x.2.isArith = false) : (ofRow first row).Folded :=
  ofRow_preserves (fun hl hr hfit => ⟨hl, hr, hfit⟩) (folded_of_isArith hfirst) hfirst
    fun x hx => ⟨folded_of_isArith (hrow x hx), hrow x hx⟩

/-- The tree of a row of terms is the one folded tree that reads as the
row. -/
theorem folded_row_iff {first : Value} {row : List (ArithOp × Value)}
    (hfirst : first.isArith = false) (hrow : ∀ x ∈ row, x.2.isArith = false) {v : Value} :
    v.Folded ∧ v.row = (first, row) ↔ v = ofRow first row := by
  constructor
  · rintro ⟨hfolded, hread⟩
    rw [← hfolded.ofRow_row, hread]
  · rintro rfl
    exact ⟨folded_ofRow hfirst hrow, row_ofRow hfirst hrow⟩

end Value

/-! ## Conditions -/

/-- A term under a run of negations. -/
structure NegatedTerm where
  nots : Nat
  term : Condition

def NegatedTerm.tree (t : NegatedTerm) : Condition := t.term.negateTimes t.nots

/-- Negated terms with connectives between them. -/
structure ConditionRow where
  first : NegatedTerm
  rest : List (LogicOp × NegatedTerm)

/-- The tree that a row of negated terms is folded into. -/
def ConditionRow.tree (row : ConditionRow) : Condition :=
  .ofRow row.first.tree (row.rest.map fun x => (x.1, x.2.tree))

theorem ConditionRow.tree_of_rest_nil {row : ConditionRow} (h : row.rest = []) :
    row.tree = row.first.tree := by
  rw [tree, h]
  rfl

namespace Condition

/-- Neither a negation nor a connective stands outside of parentheses. -/
def isTerm : Condition → Bool
  | .not _ | .notCall .. | .logical .. => false
  | _ => true

/-- The negated terms and connectives of a tree in order. A negated call is
read as `not` and the call. -/
def reading : Condition → ConditionRow
  | .not c => ⟨⟨c.reading.first.nots + 1, c.reading.first.term⟩, c.reading.rest⟩
  | .notCall name args => ⟨⟨1, .call name args⟩, []⟩
  | .logical op left right =>
    ⟨left.reading.first, left.reading.rest ++ (op, right.reading.first) :: right.reading.rest⟩
  | c => ⟨⟨0, c⟩, []⟩

theorem isLogical_of_isTerm {c : Condition} (h : c.isTerm = true) : c.isLogical = false := by
  cases c <;> first | rfl | cases h

theorem folded_of_isTerm {c : Condition} (h : c.isTerm = true) : c.Folded := by
  cases c <;> trivial

theorem reading_of_isTerm {c : Condition} (h : c.isTerm = true) : c.reading = ⟨⟨0, c⟩, []⟩ := by
  cases c <;> first | rfl | cases h

/-- One more negation in front of a negated term. -/
theorem reading_negate {c : Condition} {n : Nat} {t : Condition}
    (h : c.reading = ⟨⟨n, t⟩, []⟩) : c.negate.reading = ⟨⟨n + 1, t⟩, []⟩ := by
  cases c with
  | call name args =>
      cases h
      rfl
  | _ =>
      rw [negate, reading, h]
      rintro name args ⟨⟩

/-- A folded tree without an outer connective is a negated term. -/
theorem Folded.reading_rest {c : Condition} (h : c.Folded) (hlog : c.isLogical = false) :
    c.reading.rest = [] := by
  induction c with
  | not c ih => exact ih h.1 h.2.1
  | logical op left right => cases hlog
  | _ => rfl

theorem negate_of_isCall {c : Condition} (h : c.isCall = false) : c.negate = .not c := by
  cases c <;> first | rfl | cases h

/-- A folded tree is the tree of its reading. -/
theorem Folded.tree_reading {c : Condition} (h : c.Folded) : c.reading.tree = c := by
  induction c with
  | not c ih =>
      obtain ⟨hfolded, hlog, hcall⟩ := h
      have hrest := hfolded.reading_rest hlog
      have hfirst := (ConditionRow.tree_of_rest_nil hrest).symm.trans (ih hfolded)
      calc (Condition.not c).reading.tree
        _ = c.reading.first.tree.negate := by rw [ConditionRow.tree, reading, hrest]; rfl
        _ = .not c := by rw [hfirst, negate_of_isCall hcall]
  | logical op left right ihl ihr =>
      obtain ⟨hl, hr, hlog⟩ := h
      have hrest := hr.reading_rest hlog
      have hright := (ConditionRow.tree_of_rest_nil hrest).symm.trans (ihr hr)
      calc (Condition.logical op left right).reading.tree
        _ = .logical op left.reading.tree right.reading.first.tree := by
          rw [ConditionRow.tree, reading, hrest, List.map_append]
          exact ofRow_append _ _ _ _
        _ = .logical op left right := by rw [ihl hl, hright]
  | _ => rfl

end Condition

namespace ConditionRow

/-- The terms of the row are single terms. -/
def IsTerms (row : ConditionRow) : Prop :=
  row.first.term.isTerm = true ∧ ∀ x ∈ row.rest, x.2.term.isTerm = true

end ConditionRow

namespace NegatedTerm

theorem reading_tree {t : NegatedTerm} (h : t.term.isTerm = true) : t.tree.reading = ⟨t, []⟩ := by
  obtain ⟨n, c⟩ := t
  induction n with
  | zero => exact Condition.reading_of_isTerm h
  | succ n ih => exact Condition.reading_negate (ih h)

theorem folded_tree {t : NegatedTerm} (h : t.term.isTerm = true) :
    t.tree.Folded ∧ t.tree.isLogical = false :=
  Condition.negateTimes_preserves (fun hc hlog hcall => ⟨hc, hlog, hcall⟩) (fun _ => trivial) t.nots
    (Condition.folded_of_isTerm h) (Condition.isLogical_of_isTerm h)

end NegatedTerm

namespace Condition

theorem reading_ofRow {rest : List (LogicOp × NegatedTerm)}
    (hrest : ∀ x ∈ rest, x.2.term.isTerm = true) : ∀ first : Condition,
    (ofRow first (rest.map fun x => (x.1, x.2.tree))).reading =
      ⟨first.reading.first, first.reading.rest ++ rest⟩ := by
  induction rest with
  | nil => exact fun first => by simp [ofRow]
  | cons x rest ih =>
      obtain ⟨hx, hrest⟩ := List.forall_mem_cons.mp hrest
      intro first
      refine (ih hrest (.logical x.1 first x.2.tree)).trans ?_
      rw [reading, NegatedTerm.reading_tree hx, List.append_assoc]
      rfl

end Condition

namespace ConditionRow

variable {row : ConditionRow}

theorem reading_tree (h : row.IsTerms) : row.tree.reading = row := by
  rw [tree, Condition.reading_ofRow h.2, NegatedTerm.reading_tree h.1]
  rfl

theorem folded_tree (h : row.IsTerms) : row.tree.Folded :=
  Condition.ofRow_preserves (fun hl hr hlog => ⟨hl, hr, hlog⟩) (NegatedTerm.folded_tree h.1).1 <|
    List.forall_mem_map.mpr fun x hx => NegatedTerm.folded_tree (h.2 x hx)

theorem folded_reading_iff (h : row.IsTerms) {c : Condition} :
    c.Folded ∧ c.reading = row ↔ c = row.tree := by
  constructor
  · rintro ⟨hfolded, rfl⟩
    exact hfolded.tree_reading.symm
  · rintro rfl
    exact ⟨folded_tree h, reading_tree h⟩

end ConditionRow

/-! ## Reading sequences -/

namespace Grammar

variable {α β : Type}

/-- The second reader reads what the first one reads, and applies `f` to
it. -/
structure ReadsThrough (f : α → β) (p : Reader α) (q : Reader β) : Prop where
  read_eq (s : List Char) : q.read s = (p.read s).map fun found => (f found.1, found.2)

namespace ReadsThrough

variable {γ δ : Type} {f : α → β} {p : Reader α} {q : Reader β}

theorem pure {a : α} : ReadsThrough f (pure a) (Pure.pure (f a)) := ⟨fun _ => rfl⟩

theorem named (h : ReadsThrough f p q) (x : Symbol) : ReadsThrough f p (named x q) := ⟨h.read_eq⟩

theorem spaced (h : ReadsThrough f p q) : ReadsThrough f (spaced p) (spaced q) :=
  ⟨fun s => h.read_eq (skipGap s)⟩

/-- What comes after `q` is told what `f` makes of the value. -/
theorem bind {g : γ → δ} {k : α → Reader γ} {l : β → Reader δ} (h : ReadsThrough f p q)
    (hkl : ∀ a, ReadsThrough g (k a) (l (f a))) : ReadsThrough g (p >>= k) (q >>= l) := by
  refine ⟨fun s => ?_⟩
  rw [read_bind, read_bind, h.read_eq s]
  cases p.read s with
  | none => rfl
  | some found => exact (hkl found.1).read_eq found.2

theorem after {k : γ → Reader α} {l : γ → Reader β} (p : Reader γ)
    (h : ∀ c, ReadsThrough f (k c) (l c)) : ReadsThrough f (p >>= k) (p >>= l) := by
  have hself : ReadsThrough id p p := ⟨fun s => (congrFun Option.map_id _).symm⟩
  exact hself.bind h

theorem readMany (h : ReadsThrough f p q) (n : Nat) : ∀ s,
    Reader.readMany q n s = ((Reader.readMany p n s).1.map f, (Reader.readMany p n s).2) := by
  induction n with
  | zero => exact fun s => rfl
  | succ n ih =>
      intro s
      rw [Reader.readMany, Reader.readMany, h.read_eq s]
      cases p.read s with
      | none => rfl
      | some found => simp only [Option.map_some, ih, List.map_cons]

theorem many (h : ReadsThrough f p q) : ReadsThrough (List.map f) p.many q.many :=
  ⟨fun s => congrArg some (h.readMany (s.length + 1) s)⟩

end ReadsThrough

/-- The operands and operators of a value, not folded. -/
def valueRow (value : Reader Value) : Reader (Value × List (ArithOp × Value)) := do
  let first ← valueTerm value
  let row ← many do
    let op ← spaced arithOp
    let v ← spaced (valueTerm value)
    return (op, v)
  return (first, row)

/-- A term with the number of negations before it. -/
def negatedParts (term : Reader Condition) : Reader NegatedTerm := do
  let nots ← many (spaced notOp)
  let c ← spaced term
  return ⟨nots.length, c⟩

/-- The negated terms and connectives of a condition, not folded. -/
def conditionRow (value : Reader Value) (condition : Reader Condition) : Reader ConditionRow := do
  let first ← negatedParts (conditionTerm value condition)
  let rest ← many do
    let op ← spaced (token .logicOp scanLogicOp)
    let t ← spaced (negatedParts (conditionTerm value condition))
    return (op, t)
  return ⟨first, rest⟩

theorem valueOf_readsThrough (value : Reader Value) :
    ReadsThrough (fun r => Value.ofRow r.1 r.2) (valueRow value) (valueOf value) :=
  .named (.after _ fun _ => .after _ fun _ => .pure) _

theorem negatedTerm_readsThrough (term : Reader Condition) :
    ReadsThrough NegatedTerm.tree (negatedParts term) (negatedTerm term) :=
  .after _ fun _ => .after _ fun _ => .pure

theorem conditionOf_readsThrough (value : Reader Value) (condition : Reader Condition) :
    ReadsThrough ConditionRow.tree (conditionRow value condition)
      (conditionOf value condition) := by
  have hterm := negatedTerm_readsThrough (conditionTerm value condition)
  have hnext : ReadsThrough (fun x : LogicOp × NegatedTerm => (x.1, x.2.tree))
      (do let op ← spaced (token .logicOp scanLogicOp)
          let t ← spaced (negatedParts (conditionTerm value condition))
          return (op, t))
      (do let op ← spaced (token .logicOp scanLogicOp)
          let c ← spaced (negatedTerm (conditionTerm value condition))
          return (op, c)) :=
    .after _ fun _ => hterm.spaced.bind fun _ => .pure
  refine .named (hterm.bind fun t => hnext.many.bind fun rest => ?_) _
  exact .pure (f := ConditionRow.tree) (a := ⟨t, rest⟩)

theorem valueTerm_isArith (value : Reader Value) :
    (valueTerm value).Yields fun v => v.isArith = false := by
  refine .orElse (.bind (.any _) fun _ _ => .pure rfl) ?_
  refine .orElse (.bind (.any _) fun _ _ => .pure rfl) ?_
  refine .orElse (.bind (.any _) fun _ _ => .pure rfl) ?_
  refine .orElse (.bind (.any _) fun _ _ => .pure rfl) ?_
  exact .named (.bind (.any _) fun _ _ => .bind (.any _) fun _ _ => .bind (.any _) fun _ _ =>
    .pure rfl)

theorem valueRow_isArith (value : Reader Value) :
    (valueRow value).Yields fun r => r.1.isArith = false ∧ ∀ x ∈ r.2, x.2.isArith = false := by
  have hnext : (do let op ← spaced arithOp
                   let v ← spaced (valueTerm value)
                   return (op, v)).Yields fun x => x.2.isArith = false :=
    .bind (.any _) fun _ _ => .bind (valueTerm_isArith value).spaced fun _ hv => .pure hv
  exact .bind (valueTerm_isArith value) fun _ hfirst => .bind hnext.many fun _ hrow =>
    .pure ⟨hfirst, hrow⟩

theorem conditionTerm_isTerm (value : Reader Value) (condition : Reader Condition) :
    (conditionTerm value condition).Yields fun c => c.isTerm = true := by
  refine .orElse (.named (.bind (.any _) fun _ _ => .bind (.any _) fun _ _ =>
    .bind (.any _) fun _ _ => .pure rfl)) ?_
  refine .orElse (.named (.bind (.any _) fun _ _ => .bind (.any _) fun _ _ =>
    .bind (.any _) fun _ _ => .bind (.any _) fun _ _ => .pure rfl)) ?_
  refine .orElse (.bind (.any _) fun _ _ => .pure rfl) ?_
  refine .orElse (.bind (.any _) fun _ _ => .pure rfl) ?_
  exact .named (.bind (.any _) fun _ _ => .bind (.any _) fun _ _ => .bind (.any _) fun _ _ =>
    .pure rfl)

theorem conditionRow_isTerms (value : Reader Value) (condition : Reader Condition) :
    (conditionRow value condition).Yields ConditionRow.IsTerms := by
  have hparts : (negatedParts (conditionTerm value condition)).Yields fun t =>
      t.term.isTerm = true :=
    .bind (.any _) fun _ _ => .bind (conditionTerm_isTerm value condition).spaced fun _ hc =>
      .pure hc
  have hnext : (do let op ← spaced (token .logicOp scanLogicOp)
                   let t ← spaced (negatedParts (conditionTerm value condition))
                   return (op, t)).Yields fun x => x.2.term.isTerm = true :=
    .bind (.any _) fun _ _ => .bind hparts.spaced fun _ ht => .pure ht
  exact .bind hparts fun _ hfirst => .bind hnext.many fun _ hrest => .pure ⟨hfirst, hrest⟩

/-- A value is read as the folded tree of the terms and operators in the
text. -/
theorem valueOf_read_iff {value : Reader Value} {s rest : List Char} {v : Value} :
    (valueOf value).read s = some (v, rest) ↔
      ∃ row, (valueRow value).read s = some (row, rest) ∧ v.Folded ∧ v.row = row := by
  rw [(valueOf_readsThrough value).read_eq s, Option.map_eq_some_iff]
  constructor
  · rintro ⟨⟨row, _⟩, hread, heq⟩
    obtain ⟨rfl, rfl⟩ := Prod.mk.inj heq
    obtain ⟨hfirst, hrow⟩ := valueRow_isArith value hread
    exact ⟨row, hread, (Value.folded_row_iff hfirst hrow).mpr rfl⟩
  · rintro ⟨row, hread, hv⟩
    obtain ⟨hfirst, hrow⟩ := valueRow_isArith value hread
    exact ⟨_, hread, by rw [(Value.folded_row_iff hfirst hrow).mp hv]⟩

/-- A condition is read as the folded tree of the negated terms and
connectives in the text. -/
theorem conditionOf_read_iff {value : Reader Value} {condition : Reader Condition}
    {s rest : List Char} {c : Condition} :
    (conditionOf value condition).read s = some (c, rest) ↔
      ∃ row, (conditionRow value condition).read s = some (row, rest) ∧
        c.Folded ∧ c.reading = row := by
  rw [(conditionOf_readsThrough value condition).read_eq s, Option.map_eq_some_iff]
  constructor
  · rintro ⟨⟨row, _⟩, hread, heq⟩
    obtain ⟨rfl, rfl⟩ := Prod.mk.inj heq
    have hterms := conditionRow_isTerms value condition hread
    exact ⟨row, hread, (ConditionRow.folded_reading_iff hterms).mpr rfl⟩
  · rintro ⟨row, hread, hc⟩
    have hterms := conditionRow_isTerms value condition hread
    exact ⟨_, hread, by rw [(ConditionRow.folded_reading_iff hterms).mp hc]⟩

/-! ## Building from rows -/

/-- Negations and the term after them, as nodes. -/
def IsNegatedTerm (nodes : List ParseNode) (t : NegatedTerm) : Prop :=
  ∃ marks n, nodes = marks ++ [n] ∧ (∀ m ∈ marks, m.symbol = .notOp) ∧ marks.length = t.nots ∧
    n.symbol ≠ .notOp ∧ Builder.conditionTerm n = .ok t.term

/-- Connectives with negated terms after them, as nodes. -/
inductive IsRest : List ParseNode → List (LogicOp × NegatedTerm) → Prop
  | nil : IsRest [] []
  | cons {o : ParseNode} {op : LogicOp} {nodes more : List ParseNode} {t : NegatedTerm}
      {rest : List (LogicOp × NegatedTerm)} (hx : o.symbol = .logicOp)
      (hop : LogicOp.ofToken? o.text = some op) (ht : IsNegatedTerm nodes t)
      (h : IsRest more rest) : IsRest (o :: (nodes ++ more)) ((op, t) :: rest)

/-- A row of negated terms and connectives, as nodes. -/
def IsConditionRow (nodes : List ParseNode) (row : ConditionRow) : Prop :=
  ∃ first more, nodes = first ++ more ∧ IsNegatedTerm first row.first ∧ IsRest more row.rest

theorem lookupRest_isTerm {parent : ParseNode} {f : Field} {negated : Bool} {nodes : List ParseNode}
    {c : Condition} (h : Builder.lookupRest parent f negated nodes = .ok c) : c.isTerm = true := by
  cases nodes with
  | nil => cases h
  | cons op rest =>
      obtain ⟨op, -, h⟩ := bind_eq_ok_iff.mp h
      cases rest with
      | nil => cases h
      | cons target rest =>
          obtain ⟨target, -, ⟨⟩⟩ := bind_eq_ok_iff.mp h
          rfl

theorem builtTerm_isTerm {n : ParseNode} {c : Condition} (h : Builder.conditionTerm n = .ok c) :
    c.isTerm = true := by
  obtain ⟨symbol, left, text, children⟩ := n
  cases symbol with
  | boolean =>
      cases h
      rfl
  | comparison =>
      rw [Builder.conditionTerm, Builder.comparison] at h
      split at h
      iterate 3 cases h
      simp only [bind_eq_ok_iff] at h
      obtain ⟨_, -, _, -, _, -, ⟨⟩⟩ := h
      rfl
  | lookup =>
      rw [Builder.conditionTerm, Builder.lookup] at h
      split at h
      · cases h
      · obtain ⟨f, -, h⟩ := bind_eq_ok_iff.mp h
        split at h
        · cases h
        · split at h <;> exact lookupRest_isTerm h
  | call =>
      obtain ⟨parts, -, ⟨⟩⟩ := bind_eq_ok_iff.mp h
      rfl
  | conditionGroup =>
      cases children with
      | nil => cases h
      | cons inner rest =>
          obtain ⟨c, -, rfl⟩ := map_eq_ok_iff.mp h
          rfl
  | _ => cases h

theorem IsNegatedTerm.negated {nodes : List ParseNode} {t : NegatedTerm}
    (h : IsNegatedTerm nodes t) : Negated nodes t.tree := by
  obtain ⟨marks, n, rfl, hmarks, hlength, hx, hn⟩ := h
  rw [NegatedTerm.tree, ← hlength]
  exact negated_of_nots hmarks hx hn

theorem IsRest.conditionAfter {nodes : List ParseNode} {rest : List (LogicOp × NegatedTerm)}
    (h : IsRest nodes rest) (parent : ParseNode) (left : Condition) :
    Builder.conditionAfter parent (.ok left) nodes =
      .ok (.ofRow left (rest.map fun x => (x.1, x.2.tree))) := by
  induction h generalizing left with
  | nil => rfl
  | cons hx hop ht _ ih =>
      rw [Builder.conditionAfter, if_pos hx, ht.negated, Builder.joined, Builder.connect,
        operator_eq_ok_iff.mpr hop, ok_bind, ok_bind, ok_bind]
      exact ih _

theorem IsNegatedTerm.isTerm {nodes : List ParseNode} {t : NegatedTerm}
    (h : IsNegatedTerm nodes t) : t.term.isTerm = true := by
  obtain ⟨_, _, -, -, -, -, hn⟩ := h
  exact builtTerm_isTerm hn

theorem IsRest.isTerm {nodes : List ParseNode} {rest : List (LogicOp × NegatedTerm)}
    (h : IsRest nodes rest) : ∀ x ∈ rest, x.2.term.isTerm = true := by
  induction h with
  | nil => exact List.forall_mem_nil _
  | cons _ _ ht _ ih => exact List.forall_mem_cons.mpr ⟨ht.isTerm, ih⟩

theorem IsConditionRow.isTerms {nodes : List ParseNode} {row : ConditionRow}
    (h : IsConditionRow nodes row) : row.IsTerms := by
  obtain ⟨first, more, -, hfirst, hmore⟩ := h
  exact ⟨hfirst.isTerm, hmore.isTerm⟩

theorem connect_eq_ok_iff {left right : Builder.Built Condition} {o : ParseNode} {c : Condition} :
    Builder.connect left o right = .ok c ↔ ∃ op l r, LogicOp.ofToken? o.text = some op ∧
      left = .ok l ∧ right = .ok r ∧ c = .logical op l r := by
  simp only [Builder.connect, bind_eq_ok_iff, operator_eq_ok_iff]
  constructor
  · rintro ⟨op, hop, l, hl, r, hr, ⟨⟩⟩
    exact ⟨op, l, r, hop, hl, hr, rfl⟩
  · rintro ⟨op, l, r, hop, hl, hr, rfl⟩
    exact ⟨op, hop, l, hl, r, hr, rfl⟩

theorem exists_of_joined {before : Option (Builder.Built Condition × ParseNode)}
    {x : Builder.Built Condition} {c : Condition} (h : Builder.joined before x = .ok c) :
    ∃ c', x = .ok c' := by
  cases before with
  | none => exact ⟨c, h⟩
  | some b =>
      obtain ⟨_, _, r, -, -, hr, -⟩ := connect_eq_ok_iff.mp h
      exact ⟨r, hr⟩

theorem IsNegatedTerm.cons {n : ParseNode} {nodes : List ParseNode} {t : NegatedTerm}
    (hn : n.symbol = .notOp) (h : IsNegatedTerm nodes t) :
    IsNegatedTerm (n :: nodes) ⟨t.nots + 1, t.term⟩ := by
  obtain ⟨marks, m, rfl, hmarks, hlength, hterm⟩ := h
  exact ⟨n :: marks, m, rfl, List.forall_mem_cons.mpr ⟨hn, hmarks⟩, congrArg (· + 1) hlength,
    hterm⟩

/-- If a row is built at all, it starts with negations and a term, and what
stands before it was built. -/
theorem built_cases (parent : ParseNode) (nodes : List ParseNode) :
    (∀ left c, Builder.conditionAfter parent left nodes = .ok c → ∃ l, left = .ok l) ∧
    ∀ before k c, Builder.conditionFrom parent before k nodes = .ok c →
      ∃ first more t l, nodes = first ++ more ∧ IsNegatedTerm first t ∧
        Builder.joined before (.ok (t.term.negateTimes (k + t.nots))) = .ok l ∧
        Builder.conditionAfter parent (.ok l) more = .ok c := by
  induction nodes with
  | nil =>
      refine ⟨fun left c h => ⟨c, h⟩, fun before k c h => ?_⟩
      cases h
  | cons n nodes ih =>
      obtain ⟨ihafter, ihfrom⟩ := ih
      refine ⟨fun left c h => ?_, fun before k c h => ?_⟩
      · rw [Builder.conditionAfter] at h
        split at h
        · obtain ⟨_, _, _, _, -, -, hl, -⟩ := ihfrom _ _ _ h
          obtain ⟨_, l, _, -, hleft, -⟩ := connect_eq_ok_iff.mp hl
          exact ⟨l, hleft⟩
        · cases h
      · rw [Builder.conditionFrom] at h
        split at h
        · next hn =>
            obtain ⟨first, more, t, l, rfl, ht, hl, hafter⟩ := ihfrom _ _ _ h
            rw [Nat.add_right_comm, Nat.add_assoc] at hl
            exact ⟨n :: first, more, _, l, rfl, ht.cons hn, hl, hafter⟩
        · next hn =>
            obtain ⟨l, hl⟩ := ihafter _ _ h
            obtain ⟨_, hbuilt⟩ := exists_of_joined hl
            obtain ⟨c', hterm, -⟩ := map_eq_ok_iff.mp hbuilt
            rw [hterm] at hl h
            exact ⟨[n], nodes, ⟨0, c'⟩, l, rfl, ⟨[], n, rfl, List.forall_mem_nil _, rfl, hn, hterm⟩,
              hl, hl ▸ h⟩

theorem exists_isRest {parent : ParseNode} {left c : Condition} {nodes : List ParseNode}
    (h : Builder.conditionAfter parent (.ok left) nodes = .ok c) :
    ∃ rest, IsRest nodes rest := by
  -- by induction on the number of nodes: a connective and a term leave fewer
  induction hlength : nodes.length using Nat.strong_induction_on generalizing nodes left with
  | _ k ih =>
      cases nodes with
      | nil => exact ⟨[], .nil⟩
      | cons o nodes =>
          rw [Builder.conditionAfter] at h
          split at h
          · next hx =>
              obtain ⟨first, more, t, l, rfl, ht, hl, hafter⟩ :=
                (built_cases parent nodes).2 _ _ _ h
              obtain ⟨op, _, _, hop, -⟩ := connect_eq_ok_iff.mp hl
              have hless : more.length < k := by
                rw [← hlength, List.length_cons, List.length_append]
                omega
              obtain ⟨rest, hrest⟩ := ih more.length hless hafter rfl
              exact ⟨(op, t) :: rest, .cons hx hop ht hrest⟩
          · cases h

/-- A condition is built from its node, if the nodes inside are a row of
negated terms and connectives; it is the tree of the row. -/
theorem condition_eq_ok_iff {n : ParseNode} {c : Condition} : Builder.condition n = .ok c ↔
    ∃ row, IsConditionRow n.children row ∧ c.Folded ∧ c.reading = row := by
  obtain ⟨symbol, left, text, children⟩ := n
  have hbuilt : ∀ {row : ConditionRow}, IsConditionRow children row →
      Builder.condition ⟨symbol, left, text, children⟩ = .ok row.tree := by
    rintro row ⟨first, more, rfl, hfirst, hmore⟩
    rw [Builder.condition, hfirst.negated]
    exact hmore.conditionAfter _ _
  constructor
  · intro h
    obtain ⟨first, more, t, l, hchildren, ht, -, hafter⟩ := (built_cases _ children).2 _ _ _ h
    obtain ⟨rest, hrest⟩ := exists_isRest hafter
    have hrow : IsConditionRow children ⟨t, rest⟩ := ⟨first, more, hchildren, ht, hrest⟩
    have hc : c = ConditionRow.tree ⟨t, rest⟩ := Except.ok.inj (h.symm.trans (hbuilt hrow))
    exact ⟨_, hrow, (ConditionRow.folded_reading_iff hrow.isTerms).mpr hc⟩
  · rintro ⟨row, hrow, hc⟩
    rw [(ConditionRow.folded_reading_iff hrow.isTerms).mp hc, hbuilt hrow]

theorem builtTerm_isArith {n : ParseNode} {v : Value} (h : Builder.valueTerm n = .ok v) :
    v.isArith = false := by
  obtain ⟨symbol, left, text, children⟩ := n
  cases symbol with
  | null =>
      cases h
      rfl
  | literal | field =>
      obtain ⟨_, -, rfl⟩ := map_eq_ok_iff.mp h
      rfl
  | call =>
      obtain ⟨parts, -, ⟨⟩⟩ := bind_eq_ok_iff.mp h
      rfl
  | valueGroup =>
      cases children with
      | nil => cases h
      | cons inner rest =>
          obtain ⟨v, -, rfl⟩ := map_eq_ok_iff.mp h
          rfl
  | _ => cases h

theorem valueRest_isArith (parent : ParseNode) :
    ∀ {nodes : List ParseNode} {row : List (ArithOp × Value)},
    Builder.valueRest parent nodes = .ok row → ∀ x ∈ row, x.2.isArith = false
  | [], row, h => by
      cases h
      exact List.forall_mem_nil _
  | [_], _, h => by cases h
  | op :: term :: nodes, row, h => by
      simp only [Builder.valueRest, bind_eq_ok_iff] at h
      obtain ⟨op, -, v, hv, row, hrow, ⟨⟩⟩ := h
      exact List.forall_mem_cons.mpr ⟨builtTerm_isArith hv, valueRest_isArith parent hrow⟩

/-- A value is built from its node, if the nodes inside are a row of terms
and operators; it is the tree of the row. -/
theorem value_eq_ok_iff {n : ParseNode} {v : Value} : Builder.value n = .ok v ↔
    ∃ row, Builder.valueRow n n.children = .ok row ∧ v.Folded ∧ v.row = row := by
  obtain ⟨symbol, left, text, children⟩ := n
  have hterms : ∀ {parent : ParseNode} {first row},
      Builder.valueRow parent children = .ok (first, row) →
      first.isArith = false ∧ ∀ x ∈ row, x.2.isArith = false := by
    intro parent first row h
    cases children with
    | nil => cases h
    | cons term nodes =>
        simp only [Builder.valueRow, bind_eq_ok_iff] at h
        obtain ⟨_, hfirst, _, hrest, ⟨⟩⟩ := h
        exact ⟨builtTerm_isArith hfirst, valueRest_isArith parent hrest⟩
  rw [Builder.value, bind_eq_ok_iff]
  constructor
  · rintro ⟨⟨first, row⟩, hrow, ⟨⟩⟩
    obtain ⟨hfirst, hrest⟩ := hterms hrow
    exact ⟨_, hrow, (Value.folded_row_iff hfirst hrest).mpr rfl⟩
  · rintro ⟨⟨first, row⟩, hrow, hv⟩
    obtain ⟨hfirst, hrest⟩ := hterms hrow
    exact ⟨_, hrow, by rw [(Value.folded_row_iff hfirst hrest).mp hv]; rfl⟩

end Grammar

/-- **Folding is the one parse by precedence.** Of the trees that read as a
row of negated terms and connectives, the tree that is built is the one in
which connectives lean left and a negation stands on a single term, fused
with it if that is a call. Of the trees that read as a row of terms and
arithmetic operators, it is the one in which `* / %` bind tighter than `+ -`
and both lean left. These trees are what a text is read as, and what any node
is built to whose inner nodes are such a row; from other nodes nothing is
built. -/
theorem folding_unique :
    (∀ row : ConditionRow, row.IsTerms →
      ∀ c : Condition, c.Folded ∧ c.reading = row ↔ c = row.tree) ∧
    (∀ (first : Value) (row : List (ArithOp × Value)), first.isArith = false →
      (∀ x ∈ row, x.2.isArith = false) →
        ∀ v : Value, v.Folded ∧ v.row = (first, row) ↔ v = .ofRow first row) ∧
    (∀ value condition s c rest, (conditionOf value condition).read s = some (c, rest) ↔
      ∃ row, (conditionRow value condition).read s = some (row, rest) ∧
        c.Folded ∧ c.reading = row) ∧
    (∀ value s v rest, (valueOf value).read s = some (v, rest) ↔
      ∃ row, (valueRow value).read s = some (row, rest) ∧ v.Folded ∧ v.row = row) ∧
    (∀ n c, Builder.condition n = .ok c ↔
      ∃ row, IsConditionRow n.children row ∧ c.Folded ∧ c.reading = row) ∧
    (∀ n v, Builder.value n = .ok v ↔
      ∃ row, Builder.valueRow n n.children = .ok row ∧ v.Folded ∧ v.row = row) :=
  ⟨fun _ hrow _ => ConditionRow.folded_reading_iff hrow,
    fun _ _ hfirst hrow _ => Value.folded_row_iff hfirst hrow,
    fun _ _ _ _ _ => conditionOf_read_iff, fun _ _ _ _ => valueOf_read_iff,
    fun _ _ => condition_eq_ok_iff, fun _ _ => value_eq_ok_iff⟩

/-- Two negations before a call, then `or` and `and`; and a row that goes to
the tight level and back. -/
theorem folding_unique_mixed :
    (∀ c : Condition, c.Folded ∧ c.reading =
        ⟨⟨2, .call ⟨.length, false⟩ [.null]⟩,
          [(.or, ⟨0, .boolean "true"⟩), (.and, ⟨1, .boolean "false"⟩)]⟩ ↔
      c = .logical .and
        (.logical .or (.not (.notCall ⟨.length, false⟩ [.null])) (.boolean "true"))
        (.not (.boolean "false"))) ∧
    let num := fun raw => Value.literal (.number raw)
    ∀ v : Value, v.Folded ∧ v.row = (num "1", [(.subtract, num "2"), (.multiply, num "3"),
        (.divide, num "4"), (.add, num "5")]) ↔
      v = .arith .add (.arith .subtract (num "1")
        (.arith .divide (.arith .multiply (num "2") (num "3")) (num "4"))) (num "5") :=
  ⟨folding_unique.1 _ ⟨rfl, by decide⟩, folding_unique.2.1 _ _ rfl (by decide)⟩

end EventQuery
