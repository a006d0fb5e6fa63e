import EventQuery.Proofs.SoftErrors

/-!
# List forms

A lookup of several patterns and a call of `cidrMatch` with several ranges
are short for disjunctions. The dialect makes the same tree of the short
form and of the right-leaning `or` of the single forms
(`toDialect_listForm`); a negated lookup is the negation of the whole
disjunction.

The two differ in their errors. What stands before the list, the field or
the address, is read once in the short form and once per member in the long
one.
-/

namespace EventQuery

open EventQuery.Dialect

/-! ## Disjunctions -/

namespace Expr

/-- The right-leaning disjunction `form a or (form b or (form c or …))`. -/
def anyOf (form : Expr → Expr) (first : Expr) : List Expr → Expr
  | [] => form first
  | next :: rest => .binary "or" (form first) (anyOf form next rest)

/-- The dialect turns a disjunction into the chain of what it makes of the
single forms. -/
theorem toDialect_anyOf (form : Expr → Expr) (first : Expr) (rest : List Expr) :
    orChain? ((first :: rest).map fun e => (form e).toDialect.result) =
        some (anyOf form first rest).toDialect.result ∧
      (anyOf form first rest).toDialect.errors =
        (first :: rest).flatMap fun e => (form e).toDialect.errors := by
  induction rest generalizing first with
  | nil => exact ⟨rfl, (List.append_nil _).symm⟩
  | cons next rest ih =>
      obtain ⟨hresult, herrors⟩ := ih next
      constructor
      · rw [List.map_cons] at hresult
        rw [List.map_cons, List.map_cons, orChain?_cons_cons, hresult]
        rfl
      · rw [List.flatMap_cons, ← herrors]
        rfl

theorem toDialect_list (es : List Expr) : bottomUpList Dialect.step es =
    ⟨es.map fun e => e.toDialect.result, es.flatMap fun e => e.toDialect.errors⟩ := by
  induction es with
  | nil => rfl
  | cons e es ih =>
      rw [bottomUpList, ih]
      rfl

theorem toDialect_binary_of_ok {op : String} {left right t : Expr}
    (h : Dialect.binary op left.toDialect.result right.toDialect.result = .ok t) :
    (Expr.binary op left right).toDialect =
      ⟨t, left.toDialect.errors ++ right.toDialect.errors⟩ :=
  finish_of_ok h

theorem toDialect_call_of_ok {name : String} {args : List Expr} {t : Expr}
    (h : Dialect.call name (args.map fun e => e.toDialect.result) = .ok t) :
    (Expr.call name args).toDialect = ⟨t, args.flatMap fun e => e.toDialect.errors⟩ := by
  rw [toDialect, bottomUp, toDialect_list]
  exact finish_of_ok h

end Expr

/-! ## Lookups of patterns -/

namespace Dialect

/-- The operators that compare with patterns. -/
def patternOps : List LookupOp := [.like, .likeInsensitive, .colon, .regex, .regexInsensitive]

theorem binary_of_mem_patternOps {op : LookupOp} (hop : op ∈ patternOps) (negated : Bool)
    (left right : Expr) : binary (op.name negated) left right =
      patternLookup negated left right (patternTest op) := by
  refine binary_patternLookup ?_ ?_ negated left right
  · rintro rfl
    exact absurd hop (by decide)
  · rintro rfl
    exact absurd hop (by decide)

end Dialect

namespace Expr

/-- The dialect makes no list of what is none. -/
theorem toDialect_ne_array {e : Expr} (h : ∀ items, e ≠ .array items) (items : List Expr) :
    e.toDialect.result ≠ .array items := by
  cases e with
  | binary | unary | call => exact finish_ne_array rfl items
  | array members => exact absurd rfl (h members)
  | _ => nofun

section

variable {op : LookupOp} (hop : op ∈ patternOps) (negated : Bool)
include hop

/-- A lookup of one pattern. -/
theorem toDialect_single (f : Expr) {p : Expr} (hp : ∀ items, p ≠ .array items) :
    (Expr.binary (op.name negated) f p).toDialect =
      ⟨negateIf negated (patternTest op f.toDialect.result p.toDialect.result),
        f.toDialect.errors ++ p.toDialect.errors⟩ := by
  refine toDialect_binary_of_ok ?_
  rw [binary_of_mem_patternOps hop, patternLookup_eq, operands_of_ne_array (toDialect_ne_array hp)]
  rfl

/-- A lookup of a list of patterns. -/
theorem toDialect_listed (f : Expr) {ps : List Expr} {chain : Expr}
    (hchain : orChain? (ps.map fun p => patternTest op f.toDialect.result p.toDialect.result) =
      some chain) :
    (Expr.binary (op.name negated) f (.array ps)).toDialect =
      ⟨negateIf negated chain, f.toDialect.errors ++ ps.flatMap fun p => p.toDialect.errors⟩ := by
  have harray : (Expr.array ps).toDialect =
      ⟨.array (ps.map fun p => p.toDialect.result), ps.flatMap fun p => p.toDialect.errors⟩ :=
    congrArg (fun r : Mapped (List Expr) => Mapped.mk (Expr.array r.result) r.errors)
      (toDialect_list ps)
  have hchain' : orChain? ((ps.map fun p => p.toDialect.result).map
      (patternTest op f.toDialect.result)) = some chain := by
    rw [List.map_map]
    exact hchain
  have hstep : Dialect.binary (op.name negated) f.toDialect.result
      (Expr.array ps).toDialect.result = .ok (negateIf negated chain) := by
    rw [binary_of_mem_patternOps hop, harray, patternLookup_eq, operands, hchain']
  rw [toDialect_binary_of_ok hstep, harray]

/-- The single lookups make up the chain of a list. -/
theorem orChain?_singles (f p : Expr) {ps : List Expr}
    (hps : ∀ e ∈ p :: ps, ∀ items, e ≠ .array items) :
    orChain? ((p :: ps).map fun e => patternTest op f.toDialect.result e.toDialect.result) =
      some (anyOf (.binary op.token f ·) p ps).toDialect.result := by
  rw [← (toDialect_anyOf _ _ _).1]
  refine congrArg orChain? (List.map_congr_left fun e he => ?_)
  exact (congrArg Mapped.result (toDialect_single hop false f (hps e he))).symm

theorem toDialect_singles_errors (f p : Expr) {ps : List Expr}
    (hps : ∀ e ∈ p :: ps, ∀ items, e ≠ .array items) :
    (anyOf (.binary op.token f ·) p ps).toDialect.errors =
      (p :: ps).flatMap fun e => f.toDialect.errors ++ e.toDialect.errors := by
  rw [(toDialect_anyOf _ _ _).2]
  refine List.flatMap_congr fun e he => ?_
  exact congrArg Mapped.errors (toDialect_single hop false f (hps e he))

end

/-! ## Ranges of addresses -/

/-- A test of one or more ranges. -/
theorem toDialect_cidrMatch (a r : Expr) {rs : List Expr} {chain : Expr}
    (hchain : orChain? ((r :: rs).map fun e =>
      .call "isIPAddressInRange" [a.toDialect.result, e.toDialect.result]) = some chain) :
    (Expr.call "cidrMatch" (a :: r :: rs)).toDialect =
      ⟨chain, a.toDialect.errors ++ (r :: rs).flatMap fun e => e.toDialect.errors⟩ := by
  have htarget : target? .cidrMatch ((a :: r :: rs).map fun e => e.toDialect.result) =
      some chain := by
    rw [← hchain, List.map_cons, target?, cidrCall?, List.map_map]
    rfl
  have hcount : (arity .cidrMatch).accepts
      ((a :: r :: rs).map fun e => e.toDialect.result).length = true := by
    simp [arity, Arity.accepts]
  have hfunction : function? "cidrMatch" = some (.cidrMatch, false) := by decide
  refine toDialect_call_of_ok ?_
  unfold Dialect.call
  rw [hfunction]
  dsimp only
  rw [if_pos hcount, if_neg Bool.false_ne_true, htarget]

/-- A test of one range. -/
theorem toDialect_cidrMatch_single (a r : Expr) : (Expr.call "cidrMatch" [a, r]).toDialect =
    ⟨.call "isIPAddressInRange" [a.toDialect.result, r.toDialect.result],
      a.toDialect.errors ++ r.toDialect.errors⟩ := by
  rw [← List.flatMap_singleton (fun e : Expr => e.toDialect.errors) r]
  exact toDialect_cidrMatch a r rfl

end Expr

/-- **List forms are disjunctions.** A lookup of a list of patterns becomes
the tree of the right-leaning `or` of the single lookups, a negated one that
of the negation of the whole, and a test of several ranges that of the `or`
of the single tests. An error of the field or of the address is recorded once
by the list form, and once per member by the disjunction. -/
theorem toDialect_listForm :
    (∀ op ∈ patternOps, ∀ (f p : Expr) (ps : List Expr),
      (∀ e ∈ p :: ps, ∀ items, e ≠ .array items) →
        let listed := fun negated => (Expr.binary (op.name negated) f (.array (p :: ps))).toDialect
        let singles := Expr.anyOf (.binary op.token f ·) p ps
        (listed false).result = singles.toDialect.result ∧
          (listed true).result = (Expr.unary "not" [singles]).toDialect.result ∧
          (∀ negated, (listed negated).errors =
            f.toDialect.errors ++ (p :: ps).flatMap fun e => e.toDialect.errors) ∧
          singles.toDialect.errors =
            (p :: ps).flatMap fun e => f.toDialect.errors ++ e.toDialect.errors) ∧
    ∀ (a r : Expr) (rs : List Expr),
      let listed := (Expr.call "cidrMatch" (a :: r :: rs)).toDialect
      let singles := Expr.anyOf (fun e => .call "cidrMatch" [a, e]) r rs
      listed.result = singles.toDialect.result ∧
        listed.errors = a.toDialect.errors ++ (r :: rs).flatMap (fun e => e.toDialect.errors) ∧
        singles.toDialect.errors =
          (r :: rs).flatMap fun e => a.toDialect.errors ++ e.toDialect.errors := by
  refine ⟨fun op hop f p ps hps => ?_, fun a r rs => ?_⟩
  · have hlisted := fun negated =>
      Expr.toDialect_listed hop negated f (Expr.orChain?_singles hop f p hps)
    have hresult := fun negated => congrArg Mapped.result (hlisted negated)
    have herrors := fun negated => congrArg Mapped.errors (hlisted negated)
    exact ⟨hresult false, hresult true, herrors, Expr.toDialect_singles_errors hop f p hps⟩
  · obtain ⟨hchain, herrors⟩ := Expr.toDialect_anyOf (fun e => .call "cidrMatch" [a, e]) r rs
    simp only [Expr.toDialect_cidrMatch_single] at hchain herrors
    have hlisted := Expr.toDialect_cidrMatch a r hchain
    have hresult := congrArg Mapped.result hlisted
    exact ⟨hresult, congrArg Mapped.errors hlisted, herrors⟩

/-- A field that is a failing call, and patterns that are a text, a list
lookup of its own and a failing call. -/
theorem toDialect_listForm_nested :
    let f : Expr := .call "length" []
    let ps : List Expr := [.binary ":" (.symbol "b") (.array [.string "x*", .null]), .call "f" []]
    (∀ e ∈ Expr.string "50%" :: ps, ∀ items, e ≠ .array items) ∧
      (Expr.binary "not like" f (.array (.string "50%" :: ps))).toDialect.result =
        (Expr.unary "not" [Expr.anyOf (.binary "like" f ·) (.string "50%") ps]).toDialect.result ∧
      (Expr.binary "not like" f (.array (.string "50%" :: ps))).toDialect.errors =
        [.arity "length" (.exactly 1) 0, .unknownFunction "f"] := by
  have hps : ∀ e ∈ [Expr.string "50%", .binary ":" (.symbol "b") (.array [.string "x*", .null]),
      .call "f" []], ∀ items, e ≠ .array items := by
    simp [Expr.string]
  have h := toDialect_listForm.1 .like (by decide) (.call "length" []) _ _ hps
  exact ⟨hps, h.2.1, h.2.2.1 true⟩

end EventQuery
