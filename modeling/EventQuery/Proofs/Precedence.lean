import EventQuery.Proofs.WellFormed
import EventQuery.Query.Precedence

/-!
# Rows and trees

A row of operands and operators folds into a tree (`Value.ofRow`,
`Condition.ofRow`), and a tree unfolds into the row that it spells
(`Value.row`, `Condition.row`).

- The tree of a row of well-formed terms is well-formed. The argument is
  the same for any property that an operation has if its operands have it
  and fit (`Value.ofRow_preserves`, `Condition.ofRow_preserves`).
- A well-formed tree is the tree of its row. All that this takes are the
  side conditions of `WellFormed` on operators, which are collected in
  `Folded`.

For conditions a term may stand under negations: `Condition.term` and
`Condition.nots` take them off.
-/

namespace EventQuery

/-! ## Values: shapes of folded rows -/

namespace Value

theorem isArith_of_ne {v : Value} (h : ∀ op left right, v = .arith op left right → False) :
    v.isArith = false := by
  cases v <;> first | rfl | exact absurd rfl (h _ _ _)

theorem isLoose_of_isArith {v : Value} (h : v.isArith = false) : v.isLoose = false := by
  cases v <;> first | rfl | cases h

theorem leftmost_of_isArith {v : Value} (h : v.isArith = false) : v.leftmost = v := by
  cases v <;> first | rfl | cases h

theorem foldLeft_cons (first : Value) (op : ArithOp) (v : Value) (row : List (ArithOp × Value)) :
    foldLeft first ((op, v) :: row) = foldLeft (.arith op first v) row := rfl

theorem foldLeft_append (first : Value) (row : List (ArithOp × Value)) (op : ArithOp)
    (v : Value) : foldLeft first (row ++ [(op, v)]) = .arith op (foldLeft first row) v := by
  simp [foldLeft]

theorem foldTight_tight {op : ArithOp} (h : op.isTight = true) (first v : Value)
    (row : List (ArithOp × Value)) :
    foldTight first ((op, v) :: row) = foldTight (.arith op first v) row := by
  simp [foldTight, h]

theorem foldTight_loose {op : ArithOp} (h : op.isTight = false) (first v : Value)
    (row : List (ArithOp × Value)) :
    foldTight first ((op, v) :: row) =
      (first, (op, (foldTight v row).1) :: (foldTight v row).2) := by
  simp [foldTight, h]

theorem leftmost_foldLeft (row : List (ArithOp × Value)) :
    ∀ first, (foldLeft first row).leftmost = first.leftmost := by
  induction row with
  | nil => intro first; rfl
  | cons x row ih => intro first; rw [foldLeft_cons, ih]; rfl

theorem leftmost_foldTight (row : List (ArithOp × Value)) :
    ∀ first, (foldTight first row).1.leftmost = first.leftmost := by
  induction row with
  | nil => intro first; rfl
  | cons x row ih =>
      obtain ⟨op, v⟩ := x
      intro first
      cases hop : op.isTight with
      | true => rw [foldTight_tight hop, ih]; rfl
      | false => rw [foldTight_loose hop]

/-- The first term of a row stays the first term of its tree. -/
theorem leftmost_ofRow (first : Value) (row : List (ArithOp × Value)) :
    (ofRow first row).leftmost = first.leftmost := by
  rw [ofRow]
  exact (leftmost_foldLeft _ _).trans (leftmost_foldTight row first)

theorem isArith_foldLeft (row : List (ArithOp × Value)) :
    ∀ first, first.isArith = true → (foldLeft first row).isArith = true := by
  induction row with
  | nil => intro first h; exact h
  | cons x row ih => intro first _; rw [foldLeft_cons]; exact ih _ rfl

theorem isArith_ofRow_of_isArith (row : List (ArithOp × Value)) :
    ∀ first, first.isArith = true → (ofRow first row).isArith = true := by
  induction row with
  | nil => intro first h; exact h
  | cons x row ih =>
      obtain ⟨op, v⟩ := x
      intro first h
      cases hop : op.isTight with
      | true => rw [ofRow, foldTight_tight hop]; exact ih (.arith op first v) rfl
      | false => rw [ofRow, foldTight_loose hop]; exact isArith_foldLeft _ _ h

/-- A row with an operator folds into an operation. -/
theorem isArith_ofRow_cons (first : Value) (x : ArithOp × Value)
    (row : List (ArithOp × Value)) : (ofRow first (x :: row)).isArith = true := by
  obtain ⟨op, v⟩ := x
  cases hop : op.isTight with
  | true => rw [ofRow, foldTight_tight hop]; exact isArith_ofRow_of_isArith row _ rfl
  | false =>
      rw [ofRow, foldTight_loose hop]
      exact isArith_foldLeft _ (.arith op first _) rfl

/-! ## Values: folded rows are well-formed -/

/-- Every operation in a row of operations has operands that fit. What
stands in a group or in the arguments of a call is not looked at. -/
def Folded : Value → Prop
  | .arith op left right => left.Folded ∧ right.Folded ∧ OperandsFit op left right
  | _ => True

theorem folded_of_isArith {v : Value} (h : v.isArith = false) : v.Folded := by
  cases v <;> trivial

theorem WellFormed.folded {v : Value} (h : v.WellFormed) : v.Folded := by
  induction v using Value.Folded.induct with
  | case1 op left right ihl ihr => exact ⟨ihl h.1, ihr h.2.1, h.2.2⟩
  | case2 v hne => exact folded_of_isArith (isArith_of_ne hne)

/-- The operands of a row as a text gives them: well-formed single terms. -/
def TermRow (row : List (ArithOp × Value)) : Prop :=
  ∀ x ∈ row, x.2.WellFormed ∧ x.2.isArith = false

section

variable {P : Value → Prop}
  (hP : ∀ {op left right}, P left → P right → OperandsFit op left right → P (.arith op left right))
include hP

/-- After the tight operators are folded, the loose ones stand between
operands that are no bare sums. -/
theorem foldTight_preserves : ∀ {row : List (ArithOp × Value)} {first : Value},
    P first → first.isLoose = false → (∀ x ∈ row, P x.2 ∧ x.2.isArith = false) →
      P (foldTight first row).1 ∧ (foldTight first row).1.isLoose = false ∧
        ∀ x ∈ (foldTight first row).2, x.1.isTight = false ∧ P x.2 ∧ x.2.isLoose = false
  | [], first, hfirst, hloose, _ => ⟨hfirst, hloose, by simp [foldTight]⟩
  | (op, v) :: row, first, hfirst, hloose, hrow => by
      obtain ⟨⟨hv, harith⟩, hrow⟩ := List.forall_mem_cons.mp hrow
      cases hop : op.isTight with
      | true =>
          rw [foldTight_tight hop]
          refine foldTight_preserves (hP hfirst hv ?_) (by simp [isLoose, hop]) hrow
          simp [OperandsFit, hop, hloose, harith]
      | false =>
          rw [foldTight_loose hop]
          obtain ⟨h1, h2, h3⟩ := foldTight_preserves hv (isLoose_of_isArith harith) hrow
          exact ⟨hfirst, hloose, List.forall_mem_cons.mpr ⟨⟨hop, h1, h2⟩, h3⟩⟩

theorem foldLeft_preserves : ∀ {row : List (ArithOp × Value)} {first : Value},
    P first → (∀ x ∈ row, x.1.isTight = false ∧ P x.2 ∧ x.2.isLoose = false) →
      P (foldLeft first row)
  | [], _, hfirst, _ => hfirst
  | (op, v) :: row, first, hfirst, hrow => by
      obtain ⟨⟨hop, hv, hloose⟩, hrow⟩ := List.forall_mem_cons.mp hrow
      rw [foldLeft_cons]
      exact foldLeft_preserves (hP hfirst hv (by simp [OperandsFit, hop, hloose])) hrow

/-- What holds of single terms, and of an operation on operands that fit,
holds of the tree of a row. -/
theorem ofRow_preserves {first : Value} {row : List (ArithOp × Value)} (hfirst : P first)
    (harith : first.isArith = false) (hrow : ∀ x ∈ row, P x.2 ∧ x.2.isArith = false) :
    P (ofRow first row) := by
  obtain ⟨h1, -, h3⟩ := foldTight_preserves hP hfirst (isLoose_of_isArith harith) hrow
  exact foldLeft_preserves hP h1 h3

end

theorem ofRow_wellFormed {first : Value} {row : List (ArithOp × Value)}
    (hwf : first.WellFormed) (harith : first.isArith = false) (hrow : TermRow row) :
    (ofRow first row).WellFormed :=
  ofRow_preserves (fun hl hr hfit => ⟨hl, hr, hfit⟩) hwf harith hrow

/-! ## Values: the row of a tree -/

/-- The terms and operators that a tree spells, from left to right. -/
def row : Value → Value × List (ArithOp × Value)
  | .arith op left right =>
    (left.row.1, left.row.2 ++ (op, right.row.1) :: right.row.2)
  | v => (v, [])

theorem row_of_isArith {v : Value} (h : v.isArith = false) : v.row = (v, []) := by
  cases v <;> first | rfl | cases h

theorem row_wellFormed {v : Value} (h : v.WellFormed) :
    v.row.1.WellFormed ∧ v.row.1.isArith = false ∧ TermRow v.row.2 := by
  induction v using Value.row.induct with
  | case1 op left right ihl ihr =>
      obtain ⟨hl, hr, -⟩ := h
      obtain ⟨h1, h2, h3⟩ := ihl hl
      obtain ⟨h4, h5, h6⟩ := ihr hr
      refine ⟨h1, h2, fun x hx => ?_⟩
      rcases List.mem_append.mp hx with hx | hx
      · exact h3 x hx
      · rcases List.mem_cons.mp hx with rfl | hx
        · exact ⟨h4, h5⟩
        · exact h6 x hx
  | case2 v hne =>
      have harith := isArith_of_ne hne
      rw [row_of_isArith harith]
      exact ⟨h, harith, by simp [TermRow]⟩

/-- A loose operator ends what the tight ones before it fold. -/
theorem foldTight_append_loose {op : ArithOp} (hop : op.isTight = false) (v : Value)
    (tail : List (ArithOp × Value)) (row : List (ArithOp × Value)) :
    ∀ first, foldTight first (row ++ (op, v) :: tail) =
      ((foldTight first row).1,
        (foldTight first row).2 ++ (op, (foldTight v tail).1) :: (foldTight v tail).2) := by
  induction row with
  | nil => intro first; rw [List.nil_append, foldTight_loose hop]; rfl
  | cons x row ih =>
      obtain ⟨op', v'⟩ := x
      intro first
      rw [List.cons_append]
      cases hop' : op'.isTight with
      | true => rw [foldTight_tight hop', foldTight_tight hop', ih]
      | false => rw [foldTight_loose hop', foldTight_loose hop', ih]; rfl

/-- A row that folds into one operand goes on with that operand. -/
theorem foldTight_append {row : List (ArithOp × Value)} (tail : List (ArithOp × Value)) :
    ∀ {first v : Value}, foldTight first row = (v, []) →
      foldTight first (row ++ tail) = foldTight v tail := by
  induction row with
  | nil => intro first v h; cases h; rfl
  | cons x row ih =>
      obtain ⟨op, v'⟩ := x
      intro first v h
      rw [List.cons_append]
      cases hop : op.isTight with
      | true => rw [foldTight_tight hop] at h ⊢; exact ih h
      | false => rw [foldTight_loose hop] at h; simp at h

/-- The row of a tree folds back into the tree. A tree that is no bare
sum is already folded by the tight operators alone. -/
theorem foldTight_row {v : Value} (h : v.Folded) :
    (v.isLoose = false → foldTight v.row.1 v.row.2 = (v, [])) ∧
      foldLeft (foldTight v.row.1 v.row.2).1 (foldTight v.row.1 v.row.2).2 = v := by
  induction v using Value.row.induct with
  | case1 op left right ihl ihr =>
      obtain ⟨hl, hr, hfit⟩ := h
      cases hop : op.isTight with
      | true =>
          obtain ⟨hloose, harith⟩ : left.isLoose = false ∧ right.isArith = false := by
            simpa [OperandsFit, hop] using hfit
          have hfold : foldTight left.row.1 (left.row.2 ++ (op, right.row.1) :: right.row.2)
              = (.arith op left right, []) := by
            rw [foldTight_append _ ((ihl hl).1 hloose), row_of_isArith harith,
              foldTight_tight hop]
            rfl
          exact ⟨fun _ => hfold, by rw [row, hfold]; rfl⟩
      | false =>
          have hloose : right.isLoose = false := by simpa [OperandsFit, hop] using hfit
          refine ⟨by simp [isLoose, hop], ?_⟩
          rw [row, foldTight_append_loose hop, (ihr hr).1 hloose, foldLeft_append, (ihl hl).2]
  | case2 v hne =>
      have harith := isArith_of_ne hne
      rw [row_of_isArith harith]
      exact ⟨fun _ => rfl, rfl⟩

theorem Folded.ofRow_row {v : Value} (h : v.Folded) : ofRow v.row.1 v.row.2 = v :=
  (foldTight_row h).2

theorem ofRow_row {v : Value} (h : v.WellFormed) : ofRow v.row.1 v.row.2 = v :=
  h.folded.ofRow_row

end Value

/-! ## Conditions -/

namespace Condition

/-- Connectives lean left, and a negation stands on a single term that is no
call. -/
def Folded : Condition → Prop
  | .not c => c.Folded ∧ c.isLogical = false ∧ c.isCall = false
  | .logical _ left right => left.Folded ∧ right.Folded ∧ right.isLogical = false
  | _ => True

section

variable {P : Condition → Prop}

theorem ofRow_preserves
    (hP : ∀ {op left right}, P left → P right → right.isLogical = false →
      P (.logical op left right)) :
    ∀ {row : List (LogicOp × Condition)} {first : Condition},
      P first → (∀ x ∈ row, P x.2 ∧ x.2.isLogical = false) → P (ofRow first row)
  | [], _, hfirst, _ => hfirst
  | (op, c) :: rest, first, hfirst, hrow => by
      obtain ⟨⟨hc, hlog⟩, hrest⟩ := List.forall_mem_cons.mp hrow
      show P (ofRow (.logical op first c) rest)
      exact ofRow_preserves hP (hP hfirst hc hlog) hrest

theorem negateTimes_preserves
    (hnot : ∀ {c}, P c → c.isLogical = false → c.isCall = false → P (.not c))
    (hcall : ∀ {name args}, P (.call name args) → P (.notCall name args)) (n : Nat)
    {c : Condition} (h : P c) (hlog : c.isLogical = false) :
    P (negateTimes n c) ∧ (negateTimes n c).isLogical = false := by
  induction n with
  | zero => exact ⟨h, hlog⟩
  | succ n ih =>
      rw [negateTimes]
      cases hc : negateTimes n c with
      | call name args => exact ⟨hcall (hc ▸ ih.1), rfl⟩
      | logical op left right =>
          rw [hc] at ih
          cases ih.2
      | _ =>
          rw [hc] at ih
          exact ⟨hnot ih.1 rfl rfl, rfl⟩

end

theorem ofRow_wellFormed {row : List (LogicOp × Condition)} {first : Condition}
    (hwf : first.WellFormed) (hrow : ∀ x ∈ row, x.2.WellFormed ∧ x.2.isLogical = false) :
    (ofRow first row).WellFormed :=
  ofRow_preserves (fun hl hr hlog => ⟨hl, hr, hlog⟩) hwf hrow

theorem negateTimes_wellFormed (n : Nat) {c : Condition} (hwf : c.WellFormed)
    (hlog : c.isLogical = false) :
    (negateTimes n c).WellFormed ∧ (negateTimes n c).isLogical = false :=
  negateTimes_preserves (fun hc hlog hcall => ⟨hc, hlog, hcall⟩) (fun hcall => hcall) n hwf hlog

/-- The number of negations in front of a condition. -/
def nots : Condition → Nat
  | .not c => c.nots + 1
  | .notCall .. => 1
  | _ => 0

/-- The term under the negations. -/
def term : Condition → Condition
  | .not c => c.term
  | .notCall name args => .call name args
  | c => c

theorem negateTimes_nots {c : Condition} (h : c.WellFormed) :
    negateTimes c.nots c.term = c := by
  induction c with
  | not c ih =>
      obtain ⟨hwf, -, hcall⟩ := h
      rw [nots, term, negateTimes, ih hwf]
      cases c <;> first | rfl | cases hcall
  | _ => rfl

/-- The negated terms and connectives that a condition spells. -/
def row : Condition → Condition × List (LogicOp × Condition)
  | .logical op left right => (left.row.1, left.row.2 ++ [(op, right)])
  | c => (c, [])

theorem ofRow_append (first : Condition) (row : List (LogicOp × Condition)) (op : LogicOp)
    (c : Condition) : ofRow first (row ++ [(op, c)]) = .logical op (ofRow first row) c := by
  simp [ofRow]

theorem ofRow_row (c : Condition) : ofRow c.row.1 c.row.2 = c := by
  induction c with
  | logical op left right ihl _ => rw [row, ofRow_append, ihl]
  | _ => rfl

theorem row_wellFormed {c : Condition} (h : c.WellFormed) :
    c.row.1.WellFormed ∧ c.row.1.isLogical = false
      ∧ ∀ x ∈ c.row.2, x.2.WellFormed ∧ x.2.isLogical = false := by
  induction c with
  | logical op left right ihl _ =>
      obtain ⟨hl, hr, hlog⟩ := h
      obtain ⟨h1, h2, h3⟩ := ihl hl
      refine ⟨h1, h2, fun x hx => ?_⟩
      rcases List.mem_append.mp hx with hx | hx
      · exact h3 x hx
      · obtain rfl := List.mem_singleton.mp hx
        exact ⟨hr, hlog⟩
  | _ => exact ⟨h, rfl, by simp [row]⟩

end Condition

end EventQuery
