import EventQuery.Proofs.Precedence
import EventQuery.Proofs.SpelledTokens

/-!
# Reading spelled values

A well-formed value is read from every spelling of it (`value_reads`), if
what follows does not go on with the value.

Alternatives are ordered, so for each kind of term the earlier ones have
to fail on its text. Mostly the first character decides; a field that
bears the name of a function is told from a call by what follows it.

The induction is over the tree. It speaks of the row of a value
(`Value.row`), because an operation is read as its row and not as its two
operands.
-/

namespace EventQuery

open Grammar Reader

/-! ## Repetition -/

section Repetition

variable {α β : Type} {ts : List Lexeme} {s : List Char}

/-- A repetition reads a row of items. Each item is read up to related
values, if the lexemes that follow satisfy `F`. -/
theorem many_reads_rel {p : Reader β} {R : α → β → Prop} {lex : α → List Lexeme}
    {F : List Lexeme → Prop} {n : Nat} {xs : List α}
    (hitem : ∀ x ∈ xs, ∀ s us, s.length ≤ n → Ahead (lex x ++ us) (skipGap s) → F us →
      ∃ y, R x y ∧ Reads 1 p y s us)
    (hnext : ∀ x ∈ xs, ∀ us, F (lex x ++ us)) (hlast : F ts)
    (hdone : ∀ s, Ahead ts (skipGap s) → p.read s = none)
    (h : Ahead (xs.flatMap lex ++ ts) (skipGap s)) (hlen : s.length ≤ n) :
    ∃ ys, List.Forall₂ R xs ys ∧ Reads 0 p.many ys s ts := by
  suffices hsuff : ∃ ys tail, List.Forall₂ R xs ys ∧ Takes p s ys tail ∧ tail.length ≤ s.length
      ∧ Ahead ts (skipGap tail) by
    obtain ⟨ys, tail, hrel, htakes, htail, hahead⟩ := hsuff
    exact ⟨ys, hrel, tail, htakes.read_many, htail, hahead⟩
  induction xs generalizing s with
  | nil => exact ⟨[], s, .nil, .done (hdone s h), Nat.le_refl _, h⟩
  | cons x xs ih =>
      obtain ⟨hx, hxs⟩ := List.forall_mem_cons.mp hitem
      obtain ⟨-, hnexts⟩ := List.forall_mem_cons.mp hnext
      rw [List.flatMap_cons, List.append_assoc] at h
      have hF : F (xs.flatMap lex ++ ts) := by
        cases xs with
        | nil => exact hlast
        | cons x' xs =>
            rw [List.flatMap_cons, List.append_assoc]
            exact hnexts x' List.mem_cons_self _
      obtain ⟨y, hrel, mid, hread, hmid, hahead⟩ := hx s _ hlen h hF
      obtain ⟨ys, tail, hrels, htakes, htail, hahead'⟩ := ih hxs hnexts hahead (by omega)
      exact ⟨y :: ys, tail, .cons hrel hrels, .more hread (by omega) htakes, by omega, hahead'⟩

theorem many_reads {p : Reader α} {lex : α → List Lexeme} {F : List Lexeme → Prop} {n : Nat}
    {xs : List α}
    (hitem : ∀ x ∈ xs, ∀ s us, s.length ≤ n → Ahead (lex x ++ us) (skipGap s) → F us →
      Reads 1 p x s us)
    (hnext : ∀ x ∈ xs, ∀ us, F (lex x ++ us)) (hlast : F ts)
    (hdone : ∀ s, Ahead ts (skipGap s) → p.read s = none)
    (h : Ahead (xs.flatMap lex ++ ts) (skipGap s)) (hlen : s.length ≤ n) :
    Reads 0 p.many xs s ts := by
  obtain ⟨ys, hrel, hreads⟩ := many_reads_rel (R := Eq)
    (fun x hx s us hs hahead hus => ⟨x, rfl, hitem x hx s us hs hahead hus⟩)
    hnext hlast hdone h hlen
  rw [List.forall₂_eq_eq_eq] at hrel
  exact hrel ▸ hreads

theorem Reads.many1 {first next : Reader α} {a : α} {as : List α} {k : Nat}
    {us : List Lexeme} (ha : Reads k first a s us)
    (has : ∀ tail, tail.length + k ≤ s.length → Ahead us (skipGap tail) →
      Reads 0 next.many as tail ts) : Reads k (many1 first next) (a :: as) s ts :=
  ha.bind fun tail hlen hahead => (has tail hlen hahead).bind_rest fun _ _ h => .pure h

/-- A list with commas is read, if each item is read before what follows
it. A comma and the end of the list must both be such a follower. -/
theorem commaSeparated_reads {p : Reader α} {lex : α → List Lexeme} {F : List Lexeme → Prop}
    {n : Nat} {as : List α}
    (hitem : ∀ a ∈ as, ∀ s us, s.length ≤ n → Ahead (lex a ++ us) s → F us → Reads 1 p a s us)
    (hcomma : ∀ us, F (.text "," :: us)) (hlast : F ts) (hend : Ends (· = ',') ts)
    (hne : as ≠ []) (h : Ahead (Lexeme.separated (as.map lex) ++ ts) s) (hlen : s.length ≤ n) :
    Reads 1 (commaSeparated p) as s ts := by
  obtain ⟨a, as, rfl⟩ := List.exists_cons_of_ne_nil hne
  obtain ⟨ha, has⟩ := List.forall_mem_cons.mp hitem
  rw [List.map_cons, Lexeme.separated_cons, List.append_assoc, List.flatMap_map] at h
  have hF : F (as.flatMap (fun b => .text "," :: lex b) ++ ts) := by
    cases as with
    | nil => exact hlast
    | cons b as => exact hcomma _
  refine Reads.many1 (ha s _ hlen h hF) fun tail htail hahead => ?_
  refine many_reads (F := F) (fun b hb s us hs hb' hus => ?_) (fun b _ us => hcomma _) hlast
    (fun s hs => ?_) hahead (by omega : tail.length ≤ n)
  · refine (Reads.spaced (char_reads hb' rfl)).bind fun mid hmid hahead => ?_
    have hskip := skipGap_length_le mid
    exact (has b hb _ us (by omega) hahead hus).spaced.weaken
  · refine Reads.bind_eq_none ?_
    rw [read_spaced]
    exact read_char_eq_none (hend _ hs).head_ne

/-- The same where each item is one token. -/
theorem commaSeparated_tokens {p : Reader α} {f : α → Lexeme} {F : List Lexeme → Prop}
    {as : List α} (hitem : ∀ a ∈ as, ∀ s us, Ahead (f a :: us) s → F us → Reads 1 p a s us)
    (hcomma : ∀ us, F (.text "," :: us)) (hlast : F ts) (hend : Ends (· = ',') ts)
    (hne : as ≠ []) (h : Ahead (Lexeme.separated (as.map fun a => [f a]) ++ ts) s) :
    Reads 1 (commaSeparated p) as s ts :=
  commaSeparated_reads (fun a ha s us _ hahead hus => hitem a ha s us hahead hus) hcomma hlast hend
    hne h (Nat.le_refl _)

end Repetition

/-! ## Failing alternatives -/

section Failures

variable {value : Reader Value} {s : List Char}

theorem reserved_of_boolean {w : String} (h : w ∈ ["true", "false"]) : w ∈ reservedWords := by
  simp only [List.mem_cons, List.not_mem_nil, or_false] at h
  rcases h with rfl | rfl <;> decide

theorem lowerWord_notMem (hs : startsWord s = false) : lowerWord s ∉ ["true", "false"] := by
  have htrue : lowerWord s ≠ "true" := lowerWord_ne hs rfl
  have hfalse : lowerWord s ≠ "false" := lowerWord_ne hs rfl
  simp [htrue, hfalse]

theorem literal_eq_none (hquote : s.head? ≠ some '"')
    (hdigit : Halts (fun c => c.isDigit || c = '-') s) (hword : lowerWord s ∉ ["true", "false"]) :
    literal.read s = none :=
  orElse_eq_none (Reads.bind_eq_none (scanString_eq_none hquote))
    (orElse_eq_none (Reads.bind_eq_none (scanNumber_eq_none hdigit))
      (Reads.bind_eq_none (scanWord_eq_none hword)))

/-- A literal starts with a quote, a digit, a minus or a word. -/
theorem literal_eq_none_of_head {c : Char} (h : s.head? = some c) (hquote : c ≠ '"')
    (hdigit : (c.isDigit || c = '-') = false) (hword : isWordStart c = false) :
    literal.read s = none := by
  have hs := startsWord_of_head h hword
  refine literal_eq_none (by simpa [h] using hquote) ?_ (lowerWord_notMem hs)
  intro d hd
  rw [h] at hd
  obtain rfl := Option.some.inj hd
  exact hdigit

/-- A word that is not reserved is no literal. -/
theorem literal_eq_none_of_word (hstart : startsWord s = true)
    (hfree : lowerWord s ∉ reservedWords) : literal.read s = none :=
  literal_eq_none (head_ne_of_startsWord hstart rfl) (halts_digit_of_startsWord hstart)
    fun hmem => hfree (reserved_of_boolean hmem)

theorem callOf_eq_none (h : Builtin.ofToken? (lowerWord s) = none) :
    (callOf value).read s = none := by
  rw [callOf, read_named]
  refine Reads.bind_eq_none ?_
  rw [read_token, scanCallName, h]
  rfl

theorem lower_name_of_ofToken? {t : String} {b : Builtin} (h : Builtin.ofToken? t = some b) :
    lowerToken b.name = lowerToken t := by
  simpa using List.find?_some h

theorem ofToken?_eq_none (h : startsWord s = false) : Builtin.ofToken? (lowerWord s) = none := by
  cases hb : Builtin.ofToken? (lowerWord s) with
  | none => rfl
  | some b =>
      have hname := lower_name_of_ofToken? hb
      rw [lowerToken_lowerWord] at hname
      rw [← startsWord_lowerWord, ← hname, lowerToken, String.toList_ofList,
        startsWord_map_toLower, b.startsWord_name] at h
      cases h

theorem scanIdent_eq_none (h : startsWord s = false ∨ lowerWord s ∈ reservedWords) :
    scanIdent s = none := by
  cases s with
  | nil => rfl
  | cons c s =>
      rw [scanIdent, if_neg]
      rcases h with h | h
      · have hc : isWordStart c = false := h
        simp [hc]
      · simp [h]

theorem scanIdent_eq_some (hstart : startsWord s = true) (hfree : lowerWord s ∉ reservedWords) :
    scanIdent s
      = some (String.ofList (s.takeWhile isWordChar), s.dropWhile isWordChar) := by
  cases s with
  | nil => cases hstart
  | cons c s =>
      have hc : isWordStart c = true := hstart
      rw [scanIdent, if_pos (by simp [hc, hfree])]

theorem field_eq_none (hmark : s.head? ≠ some '?')
    (h : startsWord s = false ∨ lowerWord s ∈ reservedWords) : field.read s = none := by
  simp [field, read_optional_none, scanOptionalMarker_eq_none hmark, scanIdent_eq_none h]

theorem null_eq_none (h : lowerWord s ≠ "null") :
    (do let _ ← token .null (scanWord ["null"]); return Value.null : Reader Value).read s = none :=
  Reads.bind_eq_none (scanWord_eq_none (by simpa using h))

end Failures

/-! ## Terms -/

/-- What would make more of a value: more of its last term or an operator. -/
def continuesValue (c : Char) : Bool :=
  continuesTerm c || c = '+' || c = '-' || c = '*' || c = '/' || c = '%'

theorem arithOp_eq_none {s : List Char} (h : Halts continuesValue s) : arithOp.read s = none := by
  cases s with
  | nil => rfl
  | cons c s =>
      have hc := h c rfl
      simp only [continuesValue, Bool.or_eq_false_iff, decide_eq_false_iff_not] at hc
      obtain ⟨⟨⟨⟨⟨-, h1⟩, h2⟩, h3⟩, h4⟩, h5⟩ := hc
      simp [arithOp, sign, scanSign, h1, h2, h3, h4, h5]

/-- The value is read from its spellings before what cannot go on with it. -/
def ValueReads (v : Value) : Prop :=
  ∀ (depth : Nat) (s : List Char) (ts : List Lexeme), Ahead (v.lexemes ++ ts) s →
    s.length < depth → Ends continuesValue ts → Reads 1 (value depth) v s ts

/-- The same of a single term. -/
def TermReads (t : Value) : Prop :=
  ∀ (depth : Nat) (s : List Char) (ts : List Lexeme), Ahead (t.lexemes ++ ts) s →
    s.length ≤ depth → Ends continuesTerm ts → Reads 1 (valueTerm (value depth)) t s ts

theorem null_term : TermReads .null := by
  intro depth s ts h _ _
  obtain ⟨raw, hraw⟩ : ∃ raw, Reads 1 (token .null (scanWord ["null"])) raw s ts :=
    scanWord_reads h rfl (by decide)
  exact .orElse_left (hraw.bind fun _ _ hahead => .pure hahead)

theorem lowerWord_boolean {raw : String} (hraw : IsBooleanToken raw) {ts : List Lexeme}
    {s : List Char} (h : Ahead (.text raw :: ts) s) :
    lowerWord s ∈ ["true", "false"] := by
  obtain ⟨token, follow, rfl, htoken, hne, hsep, -⟩ := h.first
  obtain rfl : token = raw.toList := htoken
  rw [lowerWord_append hraw.isWordChar (hsep.halts hne hraw.isWordChar), ← lowerToken]
  simpa [IsBooleanToken] using hraw

/-- A literal is no word but `true` and `false`. -/
theorem lowerWord_literal {l : Literal} (hl : l.WellFormed) {ts : List Lexeme} {s : List Char}
    (h : Ahead (l.lexeme :: ts) s) :
    startsWord s = false ∨ lowerWord s ∈ ["true", "false"] := by
  cases l with
  | string raw => exact .inl (h.startsWord_text.trans (IsStringToken.startsWord hl))
  | number raw => exact .inl (h.startsWord_text.trans (IsNumberToken.startsWord hl))
  | boolean raw => exact .inr (lowerWord_boolean hl h)

theorem literal_term {l : Literal} (hl : l.WellFormed) : TermReads (.literal l) := by
  intro depth s ts h _ hend
  refine .orElse_right (null_eq_none ?_) (.orElse_left (.map (literal_reads hl h hend)))
  rcases lowerWord_literal hl h with hs | hmem
  · exact lowerWord_ne hs rfl
  · intro hnull
    rw [hnull] at hmem
    exact absurd hmem (by decide)

theorem ident_ahead {name : String} (hname : IsIdent name) {ts : List Lexeme} {s : List Char}
    (h : Ahead (.text name :: ts) s) : startsWord s = true ∧ lowerWord s ∉ reservedWords
      ∧ Ahead ts (skipGap (s.dropWhile isWordChar)) := by
  obtain ⟨token, follow, rfl, htoken, hne, hsep, hahead⟩ := h.first
  obtain rfl : token = name.toList := htoken
  have hchars := hname.word.isWordChar
  have hhalts := hsep.halts hne hchars
  refine ⟨startsWord_append hname.startsWord follow, ?_, ?_⟩
  · rw [lowerWord_append hchars hhalts, ← lowerToken]
    exact hname.free
  · rw [dropWhile_run hchars hhalts]
    exact hahead

/-- A field starts with its mark or with a word that is not reserved. -/
theorem field_ahead {f : Field} (hf : f.WellFormed) {ts : List Lexeme} {s : List Char}
    (h : Ahead (f.lexeme :: ts) s) :
    s.head? = some '?' ∨ startsWord s = true ∧ lowerWord s ∉ reservedWords
      ∧ Ahead ts (skipGap (s.dropWhile isWordChar)) := by
  obtain ⟨name, optional⟩ := f
  cases optional with
  | true =>
      refine .inl ?_
      rw [h.head_text]
      simp
  | false =>
      rw [Field.lexeme, if_neg (by simp), String.empty_append] at h
      exact .inr (ident_ahead hf h)

/-- A field is told from a call by what follows it. -/
theorem callOf_field_eq_none {f : Field} (hf : f.WellFormed) {ts : List Lexeme} {s : List Char}
    (h : Ahead (f.lexeme :: ts) s) (hend : Ends continuesTerm ts) (value : Reader Value) :
    (callOf value).read s = none := by
  rcases field_ahead hf h with hmark | ⟨-, -, hahead⟩
  · exact callOf_eq_none (ofToken?_eq_none (startsWord_of_head hmark rfl))
  · cases hb : Builtin.ofToken? (lowerWord s) with
    | none => exact callOf_eq_none hb
    | some b =>
        have hfollow := hend.follow hahead continuesTerm_gap
        have htilde : (s.dropWhile isWordChar).head? ≠ some '~' :=
          (hfollow.mono fun c hc => by simp_all [continuesTerm]).head_ne
        have hparen : (skipGap (s.dropWhile isWordChar)).head? ≠ some '(' :=
          ((hend _ hahead).mono fun c hc => by simp_all [continuesTerm]).head_ne
        have hname : (token .callName scanCallName).read s
            = some (⟨b, false⟩, s.dropWhile isWordChar) := by
          rw [read_token, scanCallName, hb, Option.map_some]
          split
          · next heq => rw [heq] at htilde; exact absurd rfl htilde
          · rfl
        rw [callOf, read_named, read_bind, hname]
        exact Reads.bind_eq_none (read_char_eq_none hparen)

theorem field_term {f : Field} (hf : f.WellFormed) : TermReads (.field f) := by
  intro depth s ts h _ hend
  have hcall := callOf_field_eq_none hf h hend (value depth)
  have hread : Reads 1 (do return Value.field (← field)) (.field f) s ts := .map (field_reads hf h)
  obtain ⟨hnull, hliteral⟩ : lowerWord s ≠ "null" ∧ literal.read s = none := by
    rcases field_ahead hf h with hmark | ⟨hstart, hfree, -⟩
    · exact ⟨lowerWord_ne (startsWord_of_head hmark rfl) rfl,
        literal_eq_none_of_head hmark (by decide) rfl rfl⟩
    · exact ⟨fun heq => hfree (heq ▸ by decide), literal_eq_none_of_word hstart hfree⟩
  exact .orElse_right (null_eq_none hnull) <| .orElse_right (Reads.bind_eq_none hliteral) <|
    .orElse_right (Reads.bind_eq_none hcall) (.orElse_left hread)

/-! ## Calls and groups -/

theorem Builtin.free (b : Builtin) : lowerToken b.name ∉ reservedWords := by
  cases b <;> decide

/-- A text that starts with the name of a function. -/
theorem callName_ahead {name : CallName} {ts : List Lexeme} {s : List Char}
    (h : Ahead (.word name.text :: ts) s) (hend : Ends (· = '~') ts) :
    startsWord s = true ∧ lowerWord s = lowerToken name.builtin.name := by
  obtain ⟨tail, hread, -, -⟩ := callName_reads h hend
  rw [read_token, scanCallName, Option.map_eq_some_iff] at hread
  obtain ⟨b, hb, heq⟩ := hread
  obtain rfl : b = name.builtin := by
    split at heq <;> cases heq <;> rfl
  have hlow := lower_name_of_ofToken? hb
  rw [lowerToken_lowerWord] at hlow
  refine ⟨?_, hlow.symm⟩
  rw [← startsWord_lowerWord, ← hlow, lowerToken, String.toList_ofList, startsWord_map_toLower,
    name.builtin.startsWord_name]

theorem callOf_reads {name : CallName} {args : List Value} {depth : Nat} {ts : List Lexeme}
    {s : List Char} (hne : args ≠ []) (hargs : ∀ v ∈ args, ValueReads v)
    (h : Ahead ((Value.call name args).lexemes ++ ts) s) (hlen : s.length ≤ depth) :
    Reads 1 (callOf (value depth)) (name, args) s ts := by
  simp only [Value.lexemes, Lexeme.grouped, List.cons_append, List.append_assoc,
    Value.listLexemes_eq_map] at h
  refine Reads.named ((callName_reads h (.text (halts_cons rfl))).bind fun s₁ h₁ hopen => ?_)
  refine (Reads.spaced (char_reads hopen rfl)).bind_rest fun s₂ h₂ hitems => ?_
  have hskip := skipGap_length_le s₂
  refine (Reads.spaced (commaSeparated_reads (F := Ends continuesValue) (n := depth - 1)
    (fun v hv s us hs hahead hus => hargs v hv depth s us hahead (by omega) hus)
    (fun us => .text (halts_cons rfl)) (.text (halts_cons rfl)) (.text (halts_cons rfl)) hne hitems
    (by omega))).bind_rest fun s₃ _ hclose => ?_
  exact (Reads.spaced (char_reads hclose rfl)).bind_rest fun s₄ _ hafter => .pure hafter

theorem call_term {name : CallName} {args : List Value} (hne : args ≠ [])
    (hargs : ∀ v ∈ args, ValueReads v) : TermReads (.call name args) := by
  intro depth s ts h hlen _
  have hread := (callOf_reads hne hargs h hlen).map (f := fun x => Value.call x.1 x.2)
  simp only [Value.lexemes, Lexeme.grouped, List.cons_append] at h
  obtain ⟨hstart, hlow⟩ := callName_ahead h (.text (halts_cons rfl))
  have hfree : lowerWord s ∉ reservedWords := hlow ▸ name.builtin.free
  exact .orElse_right (null_eq_none fun heq => hfree (heq ▸ by decide)) <|
    .orElse_right (Reads.bind_eq_none (literal_eq_none_of_word hstart hfree)) (.orElse_left hread)

/-- On a parenthesis all terms but groups fail. -/
theorem valueTerm_of_paren {value : Reader Value} {s : List Char} (h : s.head? = some '(') :
    (valueTerm value).read s = (do
      char '('
      let v ← spaced value
      spaced (char ')')
      return Value.group v : Reader Value).read s := by
  have hs := startsWord_of_head h rfl
  have hnull := null_eq_none (lowerWord_ne hs (rfl : startsWord "null".toList = true))
  have hliteral := literal_eq_none_of_head h (by decide) rfl rfl
  have hcall : (callOf value).read s = none := callOf_eq_none (ofToken?_eq_none hs)
  have hfield := field_eq_none (by rw [h]; decide) (.inl hs)
  rw [valueTerm, read_orElse, hnull, Option.none_or, read_orElse, Reads.bind_eq_none hliteral,
    Option.none_or, read_orElse, Reads.bind_eq_none hcall, Option.none_or, read_orElse,
    Reads.bind_eq_none hfield, Option.none_or, read_named]

theorem group_term {v : Value} (hv : ValueReads v) : TermReads (.group v) := by
  intro depth s ts h hlen _
  simp only [Value.lexemes, Lexeme.grouped, List.cons_append, List.append_assoc] at h
  have hread : Reads 1 (do
      char '('
      let v ← spaced (value depth)
      spaced (char ')')
      return Value.group v) (.group v) s ts :=
    enclosed_reads rfl rfl h fun inner hinner hahead =>
      hv depth inner _ hahead (by omega) (.text (halts_cons rfl))
  obtain ⟨tail, hgroup, htail, hahead⟩ := hread
  exact ⟨tail, (valueTerm_of_paren h.head_text).trans hgroup, htail, hahead⟩

/-! ## Rows and values -/

theorem Value.lexemes_row (v : Value) :
    v.lexemes = v.row.1.lexemes ++ v.row.2.flatMap fun x => .text x.1.token :: x.2.lexemes := by
  induction v with
  | arith op left right ihl ihr =>
      rw [Value.lexemes, ihl, ihr, Value.row]
      simp
  | _ => simp [Value.row]

/-- No arithmetic operator passes a test that fails on all of them. -/
theorem ends_op {p : Char → Bool} {ts : List Lexeme} (op : ArithOp)
    (hp : ['+', '-', '*', '/', '%'].all (!p ·) = true) : Ends p (.text op.token :: ts) := by
  simp only [List.all_cons, List.all_nil, Bool.and_true, Bool.and_eq_true, Bool.not_eq_true'] at hp
  obtain ⟨h1, h2, h3, h4, h5⟩ := hp
  cases op with
  | add => exact .text (halts_cons h1)
  | subtract => exact .text (halts_cons h2)
  | multiply => exact .text (halts_cons h3)
  | divide => exact .text (halts_cons h4)
  | modulo => exact .text (halts_cons h5)

/-- The first term of a row ends before the operators or at the end. -/
theorem ends_row {ts : List Lexeme} (row : List (ArithOp × Value))
    (hend : Ends continuesValue ts) :
    Ends continuesTerm (row.flatMap (fun x => .text x.1.token :: x.2.lexemes) ++ ts) := by
  cases row with
  | nil => exact hend.mono fun c hc => by simp [continuesValue, hc]
  | cons x row => exact ends_op x.1 rfl

/-- A value is read if the terms of its row are. -/
theorem value_reads_of_row {v : Value} (hv : v.WellFormed) (hfirst : TermReads v.row.1)
    (hrow : ∀ x ∈ v.row.2, TermReads x.2) : ValueReads v := by
  intro depth s ts h hlen hend
  obtain ⟨depth, rfl⟩ : ∃ d, depth = d + 1 := ⟨depth - 1, by omega⟩
  rw [v.lexemes_row, List.append_assoc] at h
  have hlast : Ends continuesTerm ts := hend.mono fun c hc => by simp [continuesValue, hc]
  have hread : Reads 1 (valueOf (value depth)) (Value.ofRow v.row.1 v.row.2) s ts := by
    refine .named ((hfirst depth s _ h (by omega) (ends_row _ hend)).bind fun s₁ h₁ hahead => ?_)
    refine (many_reads (F := Ends continuesTerm) (n := depth) ?_ (fun x _ us => ends_op x.1 rfl)
      hlast ?_ hahead (by omega)).bind_rest fun s₂ _ hafter => .pure hafter
    · intro x hx s us hs hx' hus
      refine (Reads.spaced (arithOp_reads hx')).bind fun s₃ h₃ hterm => ?_
      have hskip := skipGap_length_le s₃
      exact (hrow x hx depth _ us hterm (by omega) hus).spaced.bind_rest
        fun s₄ _ hafter => .pure hafter
    · intro s hs
      exact Reads.bind_eq_none (arithOp_eq_none (hend _ hs))
  rw [Value.ofRow_row hv] at hread
  exact hread

/-- The terms of a well-formed value are read from their spellings. -/
theorem terms_read {v : Value} (h : v.WellFormed) :
    TermReads v.row.1 ∧ ∀ x ∈ v.row.2, TermReads x.2 := by
  induction v with
  | null => exact ⟨null_term, by simp [Value.row]⟩
  | literal l => exact ⟨literal_term h, by simp [Value.row]⟩
  | field f => exact ⟨field_term h, by simp [Value.row]⟩
  | call name args ih =>
      obtain ⟨-, hne, hall⟩ := h
      rw [Value.allWellFormed_iff] at hall
      refine ⟨call_term hne fun v hv => ?_, by simp [Value.row]⟩
      obtain ⟨hfirst, hrow⟩ := ih v hv (hall v hv)
      exact value_reads_of_row (hall v hv) hfirst hrow
  | group v ih =>
      obtain ⟨hfirst, hrow⟩ := ih h
      exact ⟨group_term (value_reads_of_row h hfirst hrow), by simp [Value.row]⟩
  | arith op left right ihl ihr =>
      obtain ⟨hl, hr, -⟩ := h
      obtain ⟨hfirst, hrow⟩ := ihl hl
      obtain ⟨hfirst', hrow'⟩ := ihr hr
      refine ⟨hfirst, fun x hx => ?_⟩
      rcases List.mem_append.mp hx with hx | hx
      · exact hrow x hx
      · rcases List.mem_cons.mp hx with rfl | hx
        · exact hfirst'
        · exact hrow' x hx

theorem value_reads {v : Value} (h : v.WellFormed) : ValueReads v :=
  value_reads_of_row h (terms_read h).1 (terms_read h).2

end EventQuery
