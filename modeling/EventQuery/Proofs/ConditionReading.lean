import EventQuery.Proofs.ValueReading

/-!
# Reading spelled conditions

A well-formed condition is read from every spelling of it
(`condition_reads`), if what follows does not go on with the condition.

A comparison is tried before every other kind of term, and it starts with
a value. So the text of each other term must be shown to the reader of
values: it fails there, or it stops where no comparison operator stands.
For a group this needs an induction of its own (`value_of_condition`),
since a condition in parentheses can be taken for a value in parentheses
as far as its first operand goes.
-/

namespace EventQuery

open Grammar Reader

/-! ## Where values start -/

section Starts

variable {s : List Char} {ts : List Lexeme}

/-- Signs that start no value. -/
theorem valueTerm_eq_none_of_head {value : Reader Value} {c : Char} (h : s.head? = some c)
    (hsign : c ∈ ['=', '~']) : (valueTerm value).read s = none := by
  obtain ⟨hword, hdigit, hne⟩ : isWordStart c = false ∧ (c.isDigit || c = '-') = false
      ∧ c ≠ '"' ∧ c ≠ '?' ∧ c ≠ '(' := by
    simp only [List.mem_cons, List.not_mem_nil, or_false] at hsign
    rcases hsign with rfl | rfl <;> decide
  have hs := startsWord_of_head h hword
  exact orElse_eq_none (null_eq_none (lowerWord_ne hs rfl)) <|
    orElse_eq_none (Reads.bind_eq_none (literal_eq_none_of_head h hne.1 hdigit hword)) <|
    orElse_eq_none (Reads.bind_eq_none (callOf_eq_none (ofToken?_eq_none hs))) <|
    orElse_eq_none (Reads.bind_eq_none (field_eq_none (by simpa [h] using hne.2.1) (.inl hs))) <|
    Reads.bind_eq_none (read_char_eq_none (by simpa [h] using hne.2.2))

/-- No value starts with `not`. -/
theorem valueTerm_eq_none_of_not {value : Reader Value} (h : lowerWord s = "not") :
    (valueTerm value).read s = none := by
  have hs := startsWord_of_lowerWord h rfl
  have hne : ∀ {c : Char}, isWordStart c = false → s.head? ≠ some c := head_ne_of_startsWord hs
  have hdigit := halts_digit_of_startsWord hs
  exact orElse_eq_none (null_eq_none (by rw [h]; decide)) <|
    orElse_eq_none (Reads.bind_eq_none (literal_eq_none (hne rfl) hdigit (by rw [h]; decide))) <|
    orElse_eq_none (Reads.bind_eq_none (callOf_eq_none (by rw [h]; rfl))) <|
    orElse_eq_none (Reads.bind_eq_none (field_eq_none (hne rfl) (.inr (by rw [h]; decide)))) <|
    Reads.bind_eq_none (read_char_eq_none (hne rfl))

theorem value_eq_none {depth : Nat} (h : (valueTerm (value depth)).read s = none) :
    (value (depth + 1)).read s = none :=
  Reads.bind_eq_none h

theorem Value.WellFormed.ends_of_sign {v : Value} (hv : v.WellFormed)
    (hend : Ends continuesValue ts) {c : Char} (hsign : c ∈ ['=', '~']) :
    Ends (· = c) (v.lexemes ++ ts) := by
  intro s h d hd
  refine decide_eq_false ?_
  rintro rfl
  obtain ⟨tail, hread, -, -⟩ := value_reads hv (s.length + 1) s ts h (Nat.lt_succ_self _) hend
  rw [value_eq_none (valueTerm_eq_none_of_head hd hsign)] at hread
  cases hread

end Starts

/-! ## Lookup targets -/

section Targets

variable {s : List Char} {ts : List Lexeme}

theorem literalList_reads {items : List Literal} (hne : items ≠ [])
    (hitems : ∀ l ∈ items, l.WellFormed)
    (h : Ahead ((LookupTarget.list items).lexemes ++ ts) s) : Reads 1 literalList items s ts := by
  simp only [LookupTarget.lexemes, Lexeme.grouped, List.cons_append, List.append_assoc] at h
  refine .named (enclosed_reads (f := fun items => items) rfl rfl h fun inner _ hahead => ?_)
  exact commaSeparated_tokens (F := Ends continuesTerm)
    (fun l hl s us hl' hus => literal_reads (hitems l hl) hl' hus)
    (fun us => .text (halts_cons rfl)) (.text (halts_cons rfl)) (.text (halts_cons rfl)) hne hahead

/-- Only a group starts with a parenthesis. -/
theorem head_ne_paren {t : Value} (ht : TermReads t) (hgroup : ∀ v, t ≠ .group v)
    (h : Ahead (t.lexemes ++ ts) s) (hend : Ends continuesTerm ts) : s.head? ≠ some '(' := by
  intro hparen
  obtain ⟨tail, hread, -, -⟩ := ht s.length s ts h (Nat.le_refl _) hend
  rw [valueTerm_of_paren hparen] at hread
  simp only [read_bind, Option.bind_eq_some_iff, read_pure, Option.some.injEq,
    Prod.mk.injEq] at hread
  obtain ⟨-, -, found, -, -, -, heq, -⟩ := hread
  exact hgroup found.1 heq.symm

/-- A term that is no literal is not read as one. -/
theorem literal_eq_none_of_term {t : Value} (ht : t.WellFormed) (harith : t.isArith = false)
    (hliteral : ∀ l, t ≠ .literal l) (h : Ahead (t.lexemes ++ ts) s) : literal.read s = none := by
  cases t with
  | null =>
      have hlow : lowerWord s = "null" := h.lowerWord_word rfl
      have hs := startsWord_of_lowerWord hlow rfl
      exact literal_eq_none (head_ne_of_startsWord hs rfl) (halts_digit_of_startsWord hs)
        (by rw [hlow]; decide)
  | literal l => exact absurd rfl (hliteral l)
  | field f =>
      rcases field_ahead ht h with hmark | ⟨hstart, hfree, -⟩
      · exact literal_eq_none_of_head hmark (by decide) rfl rfl
      · exact literal_eq_none_of_word hstart hfree
  | call name args =>
      simp only [Value.lexemes, Lexeme.grouped, List.cons_append] at h
      obtain ⟨hstart, hlow⟩ := callName_ahead h (.text (halts_cons rfl))
      exact literal_eq_none_of_word hstart (hlow ▸ name.builtin.free)
  | group v => exact literal_eq_none_of_head h.head_text (by decide) rfl rfl
  | arith op left right => cases harith

/-- A group that is no literal in parentheses is no list: the first item
of the list fails, or it is followed by an operator. -/
theorem literalList_eq_none_of_group {v : Value} (hv : v.WellFormed)
    (hliteral : ∀ l, v ≠ .literal l) (h : Ahead ((Value.group v).lexemes ++ ts) s) :
    literalList.read s = none := by
  simp only [Value.lexemes, Lexeme.grouped, List.cons_append, List.append_assoc] at h
  refine Reads.bind_eq_none_of (char_reads h rfl) fun tail hahead => ?_
  rw [v.lexemes_row, List.append_assoc] at hahead
  obtain ⟨hfirst, harith, -⟩ := Value.row_wellFormed hv
  by_cases hfirst' : ∃ l, v.row.1 = .literal l
  · obtain ⟨l, hl⟩ := hfirst'
    cases hrow : v.row.2 with
    | nil =>
        -- a literal alone is excluded
        have hfold := Value.ofRow_row hv
        rw [hl, hrow] at hfold
        exact absurd hfold.symm (hliteral l)
    | cons x row =>
        rw [hl] at hfirst
        rw [hl, hrow] at hahead
        have hitem : ∀ l' ∈ [l], ∀ s us, Ahead (l'.lexeme :: us) s → Ends continuesTerm us →
            Reads 1 literal l' s us := by
          intro l' hl' s us hahead' hus
          obtain rfl := List.mem_singleton.mp hl'
          exact literal_reads hfirst hahead' hus
        have hitems : Reads 1 (commaSeparated literal) [l] (skipGap tail) _ :=
          commaSeparated_tokens hitem (fun us => .text (halts_cons rfl)) (ends_op x.1 rfl)
            (ends_op x.1 rfl) (List.cons_ne_nil _ _) hahead
        refine Reads.bind_eq_none_of hitems.spaced fun rest hrest => Reads.bind_eq_none ?_
        exact read_char_eq_none (ends_op x.1 rfl _ hrest).head_ne
  · have hnone : literal.read (skipGap tail) = none :=
      literal_eq_none_of_term hfirst harith (fun l heq => hfirst' ⟨l, heq⟩) hahead
    exact Reads.bind_eq_none (Reads.bind_eq_none hnone)

theorem literalList_eq_none {v : Value} (hv : v.WellFormed) (hlist : v.NotListLike)
    (h : Ahead (v.lexemes ++ ts) s) (hend : Ends continuesValue ts) :
    literalList.read s = none := by
  have hleft : v.leftmost = v.row.1 := by
    obtain ⟨-, harith, -⟩ := Value.row_wellFormed hv
    conv_lhs => rw [← Value.ofRow_row hv, Value.leftmost_ofRow]
    exact Value.leftmost_of_isArith harith
  obtain ⟨hfirst, -, -⟩ := Value.row_wellFormed hv
  rw [v.lexemes_row, List.append_assoc] at h
  by_cases hgroup : ∃ w, v.row.1 = .group w
  · obtain ⟨w, hw⟩ := hgroup
    rw [hw] at h hfirst
    refine literalList_eq_none_of_group (v := w) hfirst (fun l heq => ?_) h
    exact hlist l (by rw [hleft, hw, heq])
  · have hparen : s.head? ≠ some '(' :=
      head_ne_paren (terms_read hv).1 (fun w heq => hgroup ⟨w, heq⟩) h (ends_row _ hend)
    exact Reads.bind_eq_none (read_char_eq_none hparen)

theorem lookupTarget_reads {target : LookupTarget} (ht : target.WellFormed) {depth : Nat}
    (h : Ahead (target.lexemes ++ ts) s) (hlen : s.length < depth)
    (hend : Ends continuesValue ts) : Reads 1 (lookupTarget (value depth)) target s ts := by
  cases target with
  | list items => exact .orElse_left (.map (literalList_reads ht.1 ht.2 h))
  | value v =>
      have hnone := literalList_eq_none ht.1 ht.2 h hend
      have hread := value_reads ht.1 depth s ts h hlen hend
      exact .orElse_right (Reads.bind_eq_none hnone) hread.map

theorem LookupTarget.WellFormed.ends_tilde {target : LookupTarget} (ht : target.WellFormed)
    (hend : Ends continuesValue ts) : Ends (· = '~') (target.lexemes ++ ts) := by
  cases target with
  | list items => exact .text (halts_cons rfl)
  | value v => exact ht.1.ends_of_sign hend (by decide)

end Targets

/-! ## Comparisons and lookups -/

/-- What would make a comparison of a value, or more of the value. -/
def continuesComparison (c : Char) : Bool :=
  continuesValue c || c = '=' || c = '!' || c = '<' || c = '>'

theorem continuesComparison_word (c : Char) (h : isWordStart c = true) :
    continuesComparison c = false := by
  refine Bool.eq_false_iff.mpr fun hc => ?_
  simp only [continuesComparison, continuesValue, continuesTerm, Bool.or_eq_true,
    decide_eq_true_eq] at hc
  rcases hc with ((((((((((((rfl | rfl) | rfl) | rfl) | rfl) | rfl) | rfl) | rfl) | rfl) | rfl) |
    rfl) | rfl)) <;> cases h

theorem Ends.value {ts : List Lexeme} (h : Ends continuesComparison ts) :
    Ends continuesValue ts :=
  h.mono fun c hc => by simp [continuesComparison, hc]

section Terms

variable {s : List Char} {ts : List Lexeme} {depth : Nat}

theorem scanCompareOp_eq_none (h : Halts continuesComparison s) : scanCompareOp s = none := by
  cases s with
  | nil => rfl
  | cons c s =>
      have hc := h c rfl
      simp only [continuesComparison, Bool.or_eq_false_iff, decide_eq_false_iff_not] at hc
      obtain ⟨⟨⟨⟨-, h1⟩, h2⟩, h3⟩, h4⟩ := hc
      simp [scanCompareOp, CompareOp.all, CompareOp.token, Ne.symm h1, Ne.symm h2, Ne.symm h3,
        Ne.symm h4]

/-- A comparison fails where no value is read, or one that no comparison
operator follows. -/
theorem comparison_eq_none {value : Reader Value}
    (h : ∀ v tail, value.read s = some (v, tail) → Halts continuesComparison (skipGap tail)) :
    (comparison value).read s = none := by
  rw [comparison, read_named, read_bind]
  cases hread : value.read s with
  | none => rfl
  | some found =>
      exact Reads.bind_eq_none (scanCompareOp_eq_none (h found.1 found.2 hread))

theorem comparison_eq_none_of_reads {value : Reader Value} {v : Value} {k : Nat}
    (h : Reads k value v s ts) (hend : Ends continuesComparison ts) :
    (comparison value).read s = none := by
  exact comparison_eq_none fun v' tail hread => hend _ (h.ahead_of_read hread)

theorem ends_compareOp {p : Char → Bool} (op : CompareOp)
    (hp : ['=', '!', '<', '>'].all (!p ·) = true) : Ends p (.text op.token :: ts) := by
  simp only [List.all_cons, List.all_nil, Bool.and_true, Bool.and_eq_true, Bool.not_eq_true'] at hp
  obtain ⟨h1, h2, h3, h4⟩ := hp
  cases op with
  | eq => exact .text (halts_cons h1)
  | notEq => exact .text (halts_cons h2)
  | less | lessEq => exact .text (halts_cons h3)
  | greater | greaterEq => exact .text (halts_cons h4)

theorem ends_logicOp {p : Char → Bool} (op : LogicOp)
    (hp : ∀ c, isWordStart c = true → p c = false) : Ends p (.word op.token :: ts) := by
  cases op <;> exact .word hp rfl

theorem comparison_reads {op : CompareOp} {left right : Value} (hl : left.WellFormed)
    (hr : right.WellFormed) (h : Ahead ((Condition.comparison op left right).lexemes ++ ts) s)
    (hlen : s.length < depth) (hend : Ends continuesValue ts) :
    Reads 1 (comparison (value depth)) (.comparison op left right) s ts := by
  simp only [Condition.lexemes, List.append_assoc, List.cons_append] at h
  refine .named ((value_reads hl depth s _ h hlen (ends_compareOp op rfl)).bind
    fun s₁ h₁ hahead => ?_)
  refine (Reads.spaced (compareOp_reads hahead (hr.ends_of_sign hend (by decide)))).bind_rest
    fun s₂ h₂ hright => ?_
  have hskip := skipGap_length_le s₂
  exact (value_reads hr depth _ ts hright (by omega) hend).spaced.bind_rest
    fun s₃ _ hafter => .pure hafter

/-- A lookup operator is not `not`. -/
theorem notOp_eq_none_of_lookupOp {op : LookupOp} (h : Ahead (.word op.token :: ts) s)
    (hend : Ends (· = '~') ts) : notOp.read s = none := by
  refine keyword_eq_none fun hnot => ?_
  have hcolon : s.head? ≠ some ':' := head_ne_of_startsWord (startsWord_of_lowerWord hnot rfl) rfl
  obtain ⟨tail, hread, -, -⟩ := lookupOp_reads h hend
  rw [read_token, scanLookupOp_eq_none hcolon (by rw [hnot]; decide)] at hread
  cases hread

/-- After the field of a lookup there is a word or a colon. -/
theorem ends_lookup {p : Char → Bool} (hp : ∀ c, isWordStart c = true → p c = false)
    (hcolon : p ':' = false) (negated : Bool) (op : LookupOp) :
    Ends p (negationLexemes negated ++ .word op.token :: ts) := by
  cases negated with
  | true => exact .word hp rfl
  | false =>
      cases op with
      | colon => exact .cons fun token htoken => colon_spelled htoken ▸ halts_cons hcolon
      | _ => exact .word hp rfl

theorem lookup_reads {f : Field} {negated : Bool} {op : LookupOp} {target : LookupTarget}
    (hf : f.WellFormed) (ht : target.WellFormed)
    (h : Ahead ((Condition.lookup f negated op target).lexemes ++ ts) s)
    (hlen : s.length < depth) (hend : Ends continuesValue ts) :
    Reads 1 (lookup (value depth)) (.lookup f negated op target) s ts := by
  simp only [Condition.lexemes, List.append_assoc, List.cons_append] at h
  refine .named ((field_reads hf h).bind fun s₁ h₁ hahead => ?_)
  have hnegation : Reads 0 (spaced notOp).optional (if negated then some () else none) s₁
      (.word op.token :: (target.lexemes ++ ts)) := by
    cases negated with
    | true => exact (Reads.spaced (keyword_reads hahead rfl rfl)).optional_some.weaken
    | false =>
        exact .optional_none (notOp_eq_none_of_lookupOp hahead (ht.ends_tilde hend)) hahead
  refine hnegation.bind fun s₂ h₂ hop => ?_
  refine (Reads.spaced (lookupOp_reads hop (ht.ends_tilde hend))).bind_rest
    fun s₃ h₃ htarget => ?_
  have hskip := skipGap_length_le s₃
  have hisSome : (if negated then some () else none).isSome = negated := by cases negated <;> rfl
  rw [hisSome]
  exact (lookupTarget_reads ht htarget (by omega) hend).spaced.bind_rest
    fun s₄ _ hafter => .pure hafter

/-! ## Conditions shown to the reader of values -/

/-- What the reader of values makes of a group: nothing, or a group up to
the closing parenthesis. -/
theorem value_of_group {ts' : List Lexeme}
    (hinner : ∀ s, Ahead ts' s → s.length < depth →
      ∀ v tail, (value depth).read s = some (v, tail) →
      Ahead (.text ")" :: ts) (skipGap tail) ∨ (skipGap tail).head? ≠ some ')')
    (h : Ahead (.text "(" :: ts') s) (hlen : s.length < depth + 1) (hend : Ends continuesValue ts)
    {v : Value} {tail : List Char} (hread : (value (depth + 1)).read s = some (v, tail)) :
    Ahead ts (skipGap tail) := by
  obtain ⟨s₁, hopen, h₁, hahead⟩ : Reads 1 (char '(') () s ts' := char_reads h rfl
  have hskip := skipGap_length_le s₁
  rw [value, read_delay, valueOf, read_named, read_bind, valueTerm_of_paren h.head_text, read_bind,
    hopen] at hread
  simp only [Option.bind_some, read_bind, read_spaced, Option.bind_eq_some_iff, read_pure,
    Option.some.injEq, Prod.mk.injEq] at hread
  obtain ⟨⟨first, s₄⟩, ⟨⟨v', s₂⟩, hv, ⟨_, s₃⟩, hclose, rfl, rfl⟩, ⟨row, s₅⟩, hrow, -, rfl⟩ := hread
  rw [read_char_eq_some] at hclose
  rcases hinner _ hahead (by omega) v' s₂ hv with hahead' | hne
  · obtain ⟨s₆, hclose', -, hafter⟩ : Reads 1 (char ')') () (skipGap s₂) ts :=
      char_reads hahead' rfl
    rw [read_char_eq_some, hclose] at hclose'
    obtain rfl := (List.cons.inj hclose').2
    have hdone : (do
        let op ← spaced arithOp
        let v ← spaced (valueTerm (value depth))
        return (op, v) : Reader (ArithOp × Value)).read s₃ = none :=
      Reads.bind_eq_none (arithOp_eq_none (hend _ hafter))
    rw [(Takes.done hdone).read_many] at hrow
    cases hrow
    exact hafter
  · rw [hclose] at hne
    exact absurd rfl hne

theorem not_value {ts' : List Lexeme} (h : Ahead (.word "not" :: ts') s) {v : Value}
    {tail : List Char} : (value depth).read s ≠ some (v, tail) := by
  cases depth with
  | zero => simp [value]
  | succ depth =>
      have hnot : lowerWord s = "not" := h.lowerWord_word rfl
      rw [value_eq_none (valueTerm_eq_none_of_not hnot)]
      simp

/-- What the reader of values makes of a condition ends with the condition
or before a token that closes no group. -/
theorem value_of_condition {c : Condition} (hc : c.WellFormed) {depth : Nat} {s : List Char}
    {ts : List Lexeme} (h : Ahead (c.lexemes ++ ts) s) (hlen : s.length < depth)
    (hend : Ends continuesValue ts) {v : Value} {tail : List Char}
    (hread : (value depth).read s = some (v, tail)) :
    Ahead ts (skipGap tail) ∨ (skipGap tail).head? ≠ some ')' := by
  induction c generalizing depth s ts v tail with
  | boolean raw =>
      have hliteral : (Value.literal (.boolean raw)).WellFormed := hc
      exact .inl ((value_reads hliteral depth s ts h hlen hend).ahead_of_read hread)
  | not c _ => exact absurd hread (not_value h)
  | group c ih =>
      obtain ⟨depth, rfl⟩ : ∃ d, depth = d + 1 := ⟨depth - 1, by omega⟩
      simp only [Condition.lexemes, Lexeme.grouped, List.cons_append, List.append_assoc] at h
      refine .inl (value_of_group (fun s hs hlen' v tail hinner => ?_) h hlen hend hread)
      exact ih hc hs hlen' (.text (halts_cons rfl)) hinner
  | comparison op left right =>
      simp only [Condition.lexemes, List.append_assoc, List.cons_append] at h
      have hahead := (value_reads hc.1 depth s _ h hlen (ends_compareOp op rfl)).ahead_of_read hread
      exact .inr (ends_compareOp op rfl _ hahead).head_ne
  | lookup f negated op target =>
      simp only [Condition.lexemes, List.append_assoc, List.cons_append] at h
      have hfield : (Value.field f).WellFormed := hc.1
      have hahead := (value_reads hfield depth s _ h hlen
        (ends_lookup continuesComparison_word rfl negated op).value).ahead_of_read hread
      exact .inr (ends_lookup (word_ne rfl) rfl negated op _ hahead).head_ne
  | call name args =>
      have hcall : (Value.call name args).WellFormed := hc
      exact .inl ((value_reads hcall depth s ts h hlen hend).ahead_of_read hread)
  | notCall name args => exact absurd hread (not_value h)
  | logical op left right ihl _ =>
      simp only [Condition.lexemes, List.append_assoc, List.cons_append] at h
      rcases ihl hc.1 h hlen (ends_logicOp op continuesComparison_word).value hread
        with hahead | hne
      · exact .inr (ends_logicOp op (word_ne rfl) _ hahead).head_ne
      · exact .inr hne

end Terms

/-! ## Terms -/

/-- The condition is read as one term from its spellings, before what
makes no comparison of it. -/
def ConditionTermReads (c : Condition) : Prop :=
  ∀ (depth : Nat) (s : List Char) (ts : List Lexeme), Ahead (c.lexemes ++ ts) s →
    s.length ≤ depth → Ends continuesComparison ts →
    Reads 1 (conditionTerm (value (depth + 1)) (condition depth)) c s ts

/-- What would make more of a condition: also a connective. -/
def continuesCondition (c : Char) : Bool := continuesComparison c || isWordChar c

/-- The condition is read from its spellings. -/
def ConditionReads (c : Condition) : Prop :=
  ∀ (depth : Nat) (s : List Char) (ts : List Lexeme), Ahead (c.lexemes ++ ts) s →
    s.length < depth → Ends continuesCondition ts → Reads 1 (condition depth) c s ts

theorem comparison_term {op : CompareOp} {left right : Value} (hl : left.WellFormed)
    (hr : right.WellFormed) : ConditionTermReads (.comparison op left right) :=
  fun _ _ _ h hlen hend =>
    .orElse_left (comparison_reads hl hr h (Nat.lt_succ_of_le hlen) hend.value)

theorem lookup_term {f : Field} {negated : Bool} {op : LookupOp} {target : LookupTarget}
    (hf : f.WellFormed) (ht : target.WellFormed) :
    ConditionTermReads (.lookup f negated op target) := by
  intro depth s ts h hlen hend
  have hread := lookup_reads hf ht h (Nat.lt_succ_of_le hlen) hend.value
  simp only [Condition.lexemes, List.append_assoc, List.cons_append] at h
  have hnext : Ends continuesComparison
      (negationLexemes negated ++ .word op.token :: (target.lexemes ++ ts)) :=
    ends_lookup continuesComparison_word rfl negated op
  have hfield : (Value.field f).WellFormed := hf
  have hnone := comparison_eq_none_of_reads
    (value_reads hfield (depth + 1) s _ h (Nat.lt_succ_of_le hlen) hnext.value) hnext
  exact .orElse_right hnone (.orElse_left hread)

theorem boolean_term {raw : String} (hraw : IsBooleanToken raw) :
    ConditionTermReads (.boolean raw) := by
  intro depth s ts h hlen hend
  have hliteral : (Value.literal (.boolean raw)).WellFormed := hraw
  have hcomparison := comparison_eq_none_of_reads
    (value_reads hliteral (depth + 1) s ts h (Nat.lt_succ_of_le hlen) hend.value) hend
  have hfield : field.read s = none := by
    refine field_eq_none ?_ (.inr ?_)
    · rw [h.head_text]
      exact head_ne_of_startsWord hraw.startsWord rfl
    · exact reserved_of_boolean (lowerWord_boolean hraw h)
  exact .orElse_right hcomparison <| .orElse_right (Reads.bind_eq_none hfield) <|
    .orElse_left (.map (boolean_reads hraw h))

/-- After the word that starts a call there is a tilde or a parenthesis. -/
theorem callName_rest {name : CallName} {ts : List Lexeme} {s : List Char}
    (h : Ahead (.word name.text :: .text "(" :: ts) s) :
    ∃ c ∈ ['~', '('], (skipGap (s.dropWhile isWordChar)).head? = some c := by
  obtain ⟨tail, hread, -, hahead⟩ := callName_reads h (.text (halts_cons rfl))
  rw [read_token, scanCallName, Option.map_eq_some_iff] at hread
  obtain ⟨b, -, heq⟩ := hread
  split at heq
  · next rest hdrop =>
      refine ⟨'~', by decide, ?_⟩
      rw [hdrop, skipGap_of_head rfl fun heq => absurd heq (by decide)]
      rfl
  · obtain rfl := (Prod.mk.inj heq).2
    exact ⟨'(', by decide, hahead.head_text⟩

/-- A call is not taken for a lookup. -/
theorem lookup_eq_none_of_call {name : CallName} {ts : List Lexeme} {s : List Char}
    (h : Ahead (.word name.text :: .text "(" :: ts) s) (value : Reader Value) :
    (lookup value).read s = none := by
  obtain ⟨hstart, hlow⟩ := callName_ahead h (.text (halts_cons rfl))
  obtain ⟨c, hmem, hhead⟩ := callName_rest h
  obtain ⟨hsign, hcolon⟩ : isWordStart c = false ∧ c ≠ ':' := by
    simp only [List.mem_cons, List.not_mem_nil, or_false] at hmem
    rcases hmem with rfl | rfl <;> decide
  have hrest := startsWord_of_head hhead hsign
  have hnot : (spaced notOp).read (s.dropWhile isWordChar) = none :=
    keyword_eq_none (lowerWord_ne hrest rfl)
  have hop : scanLookupOp (skipGap (s.dropWhile isWordChar)) = none := by
    refine scanLookupOp_eq_none (by simpa [hhead] using hcolon) fun hw => ?_
    obtain ⟨-, -, hword⟩ := lookupWords_spec hw
    rw [startsWord_lowerWord, hrest] at hword
    cases hword
  have hmark : scanOptionalMarker s = none :=
    scanOptionalMarker_eq_none (head_ne_of_startsWord hstart rfl)
  have hident := scanIdent_eq_some hstart (hlow ▸ name.builtin.free)
  have hfield : field.read s
      = some (⟨String.ofList (s.takeWhile isWordChar), false⟩, s.dropWhile isWordChar) := by
    simp [field, read_optional_none, hmark, hident]
  rw [lookup, read_named, read_bind, hfield, Option.bind_some, read_bind, read_optional_none hnot,
    Option.bind_some]
  exact Reads.bind_eq_none hop

theorem call_condition_term {name : CallName} {args : List Value}
    (h : (Value.call name args).WellFormed) : ConditionTermReads (.call name args) := by
  intro depth s ts hahead hlen hend
  have hall := Value.allWellFormed_iff.mp h.2.2
  have hcall := callOf_reads h.2.1 (fun v hv => value_reads (hall v hv)) hahead
    (Nat.le_succ_of_le hlen)
  have hread := hcall.map (f := fun x => Condition.call x.1 x.2)
  have hcomparison := comparison_eq_none_of_reads
    (value_reads h (depth + 1) s ts hahead (Nat.lt_succ_of_le hlen) hend.value) hend
  simp only [Condition.lexemes, Value.lexemes, Lexeme.grouped, List.cons_append] at hahead
  have hlookup := lookup_eq_none_of_call hahead (value (depth + 1))
  obtain ⟨-, hlow⟩ := callName_ahead hahead (.text (halts_cons rfl))
  have hboolean : boolean.read s = none := by
    refine scanWord_eq_none fun hmem => name.builtin.free ?_
    rw [← hlow]
    exact reserved_of_boolean hmem
  exact .orElse_right hcomparison <| .orElse_right hlookup <|
    .orElse_right (Reads.bind_eq_none hboolean) (.orElse_left hread)

theorem group_condition_term {c : Condition} (hc : c.WellFormed) (hreads : ConditionReads c) :
    ConditionTermReads (.group c) := by
  intro depth s ts h hlen hend
  simp only [Condition.lexemes, Lexeme.grouped, List.cons_append, List.append_assoc] at h
  have hread : Reads 1 (do
      char '('
      let c ← spaced (condition depth)
      spaced (char ')')
      return Condition.group c) (.group c) s ts :=
    enclosed_reads rfl rfl h fun inner hinner hahead =>
      hreads depth inner _ hahead (by omega) (.text (halts_cons rfl))
  -- the text may be a value in parentheses, but no operator follows it
  have hcomparison : (comparison (value (depth + 1))).read s = none := by
    refine comparison_eq_none fun v tail hv => hend _ ?_
    refine value_of_group (fun s hs hlen' v tail hinner => ?_) h (Nat.lt_succ_of_le hlen)
      hend.value hv
    exact value_of_condition hc hs hlen' (.text (halts_cons rfl)) hinner
  have hs : startsWord s = false := startsWord_of_head h.head_text rfl
  have hfield : field.read s = none := field_eq_none (by rw [h.head_text]; decide) (.inl hs)
  have hboolean : boolean.read s = none := scanWord_eq_none (lowerWord_notMem hs)
  exact .orElse_right hcomparison <| .orElse_right (Reads.bind_eq_none hfield) <|
    .orElse_right (Reads.bind_eq_none hboolean) <|
    .orElse_right (Reads.bind_eq_none (callOf_eq_none (ofToken?_eq_none hs))) (.named hread)

/-! ## Negations, rows and conditions -/

theorem Condition.lexemes_nots (c : Condition) :
    c.lexemes = (List.replicate c.nots ()).flatMap (fun _ => [.word "not"]) ++ c.term.lexemes := by
  induction c with
  | not c ih => rw [lexemes, ih, nots, term, List.replicate_succ]; simp
  | _ => simp [nots, term, lexemes]

theorem Condition.lexemes_row (c : Condition) :
    c.lexemes = c.row.1.lexemes ++ c.row.2.flatMap fun x => .word x.1.token :: x.2.lexemes := by
  induction c with
  | logical op left right ihl _ => rw [lexemes, ihl, row]; simp
  | _ => simp [row]

/-- No term starts with `not`. -/
theorem conditionTerm_eq_none_of_not {depth : Nat} {condition : Reader Condition} {s : List Char}
    (h : lowerWord s = "not") : (conditionTerm (value (depth + 1)) condition).read s = none := by
  have hs := startsWord_of_lowerWord h rfl
  have hne : ∀ {c : Char}, isWordStart c = false → s.head? ≠ some c := head_ne_of_startsWord hs
  exact orElse_eq_none (Reads.bind_eq_none (value_eq_none (valueTerm_eq_none_of_not h))) <|
    orElse_eq_none (Reads.bind_eq_none (field_eq_none (hne rfl) (.inr (by rw [h]; decide)))) <|
    orElse_eq_none (Reads.bind_eq_none (scanWord_eq_none (by rw [h]; decide))) <|
    orElse_eq_none (Reads.bind_eq_none (callOf_eq_none (by rw [h]; rfl)))
      (Reads.bind_eq_none (read_char_eq_none (hne rfl)))

theorem negatedTerm_reads {c : Condition} (hc : c.WellFormed) (hterm : ConditionTermReads c.term)
    {depth : Nat} {s : List Char} {ts : List Lexeme} (h : Ahead (c.lexemes ++ ts) (skipGap s))
    (hlen : s.length ≤ depth) (hend : Ends continuesComparison ts) :
    Reads 1 (negatedTerm (conditionTerm (value (depth + 1)) (condition depth))) c s ts := by
  rw [c.lexemes_nots, List.append_assoc] at h
  have hnots : Reads 0 (many (spaced notOp)) (List.replicate c.nots ()) s
      (c.term.lexemes ++ ts) := by
    refine many_reads (F := fun _ => True) (fun _ _ s us _ hnot _ => ?_) (fun _ _ _ => trivial)
      trivial (fun s hs => ?_) h (Nat.le_refl _)
    · exact (keyword_reads hnot rfl rfl).spaced
    · refine keyword_eq_none fun hnot => ?_
      obtain ⟨tail, hread, -, -⟩ := hterm _ _ ts hs (Nat.le_refl _) hend
      rw [conditionTerm_eq_none_of_not hnot] at hread
      cases hread
  refine hnots.bind_last fun s₁ h₁ hahead => ?_
  have hskip := skipGap_length_le s₁
  have hread := (hterm depth _ ts hahead (by omega) hend).spaced
  refine hread.bind fun s₂ _ hafter => ?_
  rw [List.length_replicate, Condition.negateTimes_nots hc]
  exact .pure hafter

/-- A condition is read if the terms of its row are. -/
theorem condition_reads_of_row {c : Condition} (hc : c.WellFormed)
    (hfirst : ConditionTermReads c.row.1.term)
    (hrow : ∀ x ∈ c.row.2, ConditionTermReads x.2.term) : ConditionReads c := by
  intro depth s ts h hlen hend
  obtain ⟨depth, rfl⟩ : ∃ d, depth = d + 1 := ⟨depth - 1, by omega⟩
  rw [c.lexemes_row, List.append_assoc, ← h.skipGap_eq] at h
  obtain ⟨hwf, -, hwfs⟩ := Condition.row_wellFormed hc
  have hlast : Ends continuesComparison ts := hend.mono fun c hc => by simp [continuesCondition, hc]
  have hnext : Ends continuesComparison
      (c.row.2.flatMap (fun x => .word x.1.token :: x.2.lexemes) ++ ts) := by
    cases c.row.2 with
    | nil => exact hlast
    | cons x row => exact ends_logicOp x.1 continuesComparison_word
  have hread : Reads 1 (conditionOf (value (depth + 1)) (condition depth))
      (Condition.ofRow c.row.1 c.row.2) s ts := by
    refine .named ((negatedTerm_reads hwf hfirst h (by omega) hnext).bind fun s₁ h₁ hahead => ?_)
    refine (many_reads (F := Ends continuesComparison) (n := depth) ?_
      (fun x _ us => ends_logicOp x.1 continuesComparison_word) hlast ?_
      hahead (by omega)).bind_rest fun s₂ _ hafter => .pure hafter
    · intro x hx s us hs hx' hus
      refine (Reads.spaced (logicOp_reads hx')).bind fun s₃ h₃ hterm => ?_
      have hskip := skipGap_length_le s₃
      rw [← hterm.skipGap_eq] at hterm
      exact (negatedTerm_reads (hwfs x hx).1 (hrow x hx) hterm (by omega) hus).spaced.bind_rest
        fun s₄ _ hafter => .pure hafter
    · intro s hs
      have hword : Halts isWordChar (skipGap s) :=
        (hend _ hs).mono fun c hc => by simp [continuesCondition, hc]
      refine Reads.bind_eq_none ?_
      rw [read_spaced, read_token, scanLogicOp, lowerWord_of_halts hword]
      rfl
  rw [c.ofRow_row] at hread
  rw [condition]
  exact .delay hread

theorem Condition.row_fst {c : Condition} (h : c.isLogical = false) : c.row.1 = c := by
  cases c with
  | logical op left right => cases h
  | _ => rfl

/-- The terms of a well-formed condition are read from their spellings. -/
theorem conditionTerms_read {c : Condition} (h : c.WellFormed) :
    ConditionTermReads c.row.1.term ∧ ∀ x ∈ c.row.2, ConditionTermReads x.2.term := by
  induction c with
  | boolean raw => exact ⟨boolean_term h, by simp [Condition.row]⟩
  | not c ih =>
      obtain ⟨hc, hlogical, -⟩ := h
      obtain ⟨hterm, -⟩ := ih hc
      rw [Condition.row_fst hlogical] at hterm
      exact ⟨hterm, by simp [Condition.row]⟩
  | group c ih =>
      obtain ⟨hfirst, hrow⟩ := ih h
      exact ⟨group_condition_term h (condition_reads_of_row h hfirst hrow), by simp [Condition.row]⟩
  | comparison op left right => exact ⟨comparison_term h.1 h.2, by simp [Condition.row]⟩
  | lookup f negated op target => exact ⟨lookup_term h.1 h.2, by simp [Condition.row]⟩
  | call name args => exact ⟨call_condition_term h, by simp [Condition.row]⟩
  | notCall name args => exact ⟨call_condition_term h, by simp [Condition.row]⟩
  | logical op left right ihl ihr =>
      obtain ⟨hl, hr, hlogical⟩ := h
      obtain ⟨hfirst, hterms⟩ := ihl hl
      obtain ⟨hterm, -⟩ := ihr hr
      rw [Condition.row_fst hlogical] at hterm
      refine ⟨hfirst, fun x hx => ?_⟩
      rcases List.mem_append.mp hx with hx | hx
      · exact hterms x hx
      · obtain rfl := List.mem_singleton.mp hx
        exact hterm

theorem condition_reads {c : Condition} (h : c.WellFormed) : ConditionReads c :=
  condition_reads_of_row h (conditionTerms_read h).1 (conditionTerms_read h).2

end EventQuery
