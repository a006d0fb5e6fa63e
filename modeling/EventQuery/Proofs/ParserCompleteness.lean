import EventQuery.Filter
import EventQuery.Proofs.ConditionReading
import EventQuery.Proofs.ProperTokens
import EventQuery.Proofs.QueryBuilding

/-!
# Every spelling is read

Every well-formed query is read from every spelling of it
(`parse_of_spelledBy`): the words in any case, and between any two tokens
whatever blanks and comments keep them apart.

Values and conditions are read by the previous modules. Above them the
grammar decides by keywords and brackets. Counts and spans are read as
tokens first, so the reading of a construct that holds one is stated up
to the number that the token stands for.
-/

namespace EventQuery

open Grammar Reader

/-! ## Clauses -/

section Clauses

variable {s : List Char} {ts : List Lexeme} {depth : Nat}

/-- What would make more of a query in brackets or of its keys. -/
def continuesClause (c : Char) : Bool := continuesCondition c || c = ','

theorem Ends.condition (h : Ends continuesClause ts) : Ends continuesCondition ts :=
  h.mono fun c hc => by simp [continuesClause, hc]

theorem Ends.comma (h : Ends continuesClause ts) : Ends (· = ',') ts :=
  h.mono fun c hc => by simp_all [continuesClause]

/-- No word is ahead where a clause ends. -/
theorem Ends.lowerWord_ne (h : Ends continuesClause ts) (hs : Ahead ts s) {w : String}
    (hw : w ≠ "") : lowerWord s ≠ w := by
  have hhalts : Halts isWordChar s := (h s hs).mono fun c hc => by
    simp [continuesClause, continuesCondition, hc]
  rw [lowerWord_of_halts hhalts]
  exact hw.symm

theorem Ends.keyword_eq_none (h : Ends continuesClause ts) (hs : Ahead ts s) {symbol : Symbol}
    {w : String} (hw : w ≠ "") : (keyword symbol w).read s = none :=
  EventQuery.keyword_eq_none (h.lowerWord_ne hs hw)

theorem category_reads {c : Category} (hc : c.WellFormed) (h : Ahead (c.lexeme :: ts) s)
    (hend : Ends continuesTerm ts) : Reads 1 category c s ts := by
  refine .named ?_
  cases c with
  | any =>
      obtain ⟨raw, hraw⟩ : ∃ raw, Reads 1 (token .any (scanWord ["any"])) raw s ts :=
        scanWord_reads h rfl (by decide)
      exact .orElse_left (hraw.bind fun _ _ hahead => .pure hahead)
  | name text =>
      obtain ⟨hstart, hfree, -⟩ := ident_ahead hc h
      have hany : scanWord ["any"] s = none := scanWord_eq_none fun hmem => hfree (by
        rw [List.mem_singleton.mp hmem]; decide)
      have hquote := scanString_eq_none (head_ne_of_startsWord hstart rfl)
      exact .orElse_right (Reads.bind_eq_none hany) <| .orElse_right (Reads.bind_eq_none hquote)
        (.map (ident_reads hc h))
  | quoted raw =>
      have hs := h.startsWord_text.trans (IsStringToken.startsWord hc)
      have hany : scanWord ["any"] s = none :=
        scanWord_eq_none fun hmem => lowerWord_ne hs rfl (List.mem_singleton.mp hmem)
      exact .orElse_right (Reads.bind_eq_none hany) (.orElse_left (.map (string_reads hc h hend)))

/-- A category is none of the words that start other queries. -/
theorem lowerWord_category {c : Category} (hc : c.WellFormed) (h : Ahead (c.lexeme :: ts) s) :
    lowerWord s ≠ "sequence" ∧ lowerWord s ≠ "sample" := by
  cases c with
  | any =>
      have hlow : lowerWord s = "any" := h.lowerWord_word rfl
      rw [hlow]
      decide
  | name text =>
      obtain ⟨-, hfree, -⟩ := ident_ahead hc h
      exact ⟨fun heq => hfree (heq ▸ by decide), fun heq => hfree (heq ▸ by decide)⟩
  | quoted raw =>
      have hs := h.startsWord_text.trans (IsStringToken.startsWord hc)
      exact ⟨lowerWord_ne hs rfl, lowerWord_ne hs rfl⟩

theorem continuesTerm_word (c : Char) (h : isWordStart c = true) : continuesTerm c = false := by
  have hc := continuesComparison_word c h
  simp only [continuesComparison, continuesValue, Bool.or_eq_false_iff] at hc
  exact hc.1.1.1.1.1.1.1.1.1

theorem simpleQuery_reads {q : SimpleQuery} (hq : q.WellFormed) (h : Ahead (q.lexemes ++ ts) s)
    (hlen : s.length ≤ depth) (hend : Ends continuesClause ts) :
    Reads 1 (simpleQuery (condition depth)) q s ts := by
  obtain ⟨category, filter⟩ := q
  obtain ⟨hcategory, hcondition⟩ := hq
  cases filter with
  | none =>
      have hterm : Ends continuesTerm ts := hend.mono fun c hc => by
        simp [continuesClause, continuesCondition, continuesComparison, continuesValue, hc]
      refine .named ((category_reads hcategory h hterm).bind fun s₁ _ hahead => ?_)
      have hwhere : (spaced (keyword .kwWhere "where")).read s₁ = none :=
        hend.keyword_eq_none hahead (by decide)
      exact (Reads.optional_none (Reads.bind_eq_none hwhere) hahead).bind
        fun s₂ _ hafter => .pure hafter
  | some c =>
      simp only [SimpleQuery.lexemes, Option.toList_some, List.flatMap_cons, List.flatMap_nil,
        List.append_nil, List.cons_append] at h
      refine .named ((category_reads hcategory h (.word continuesTerm_word rfl)).bind
        fun s₁ h₁ hwhere => ?_)
      have hfilter : Reads 0 (do spaced (keyword .kwWhere "where"); spaced (condition depth)) c
          s₁ ts := by
        refine (Reads.spaced (keyword_reads hwhere rfl rfl)).bind_rest fun s₂ h₂ hahead => ?_
        have hskip := skipGap_length_le s₂
        exact (condition_reads (hcondition c rfl) depth _ ts hahead (by omega)
          hend.condition).spaced.weaken
      exact hfilter.optional_some.bind fun s₃ _ hafter => .pure hafter

theorem bracketed_reads {q : SimpleQuery} (hq : q.WellFormed) (h : Ahead (q.bracketed ++ ts) s)
    (hlen : s.length ≤ depth) : Reads 1 (bracketed (condition depth)) q s ts := by
  simp only [SimpleQuery.bracketed, List.cons_append, List.append_assoc] at h
  exact enclosed_reads (f := fun q => q) rfl rfl h fun inner hinner hahead =>
    simpleQuery_reads hq hahead (by omega) (.text (halts_cons rfl))

theorem fieldList_reads {fields : List Field} (hfields : FieldsWellFormed fields)
    (h : Ahead (fieldLexemes fields ++ ts) s) (hend : Ends (· = ',') ts) :
    Reads 1 fieldList fields s ts :=
  .named <| commaSeparated_tokens (F := fun _ => True)
    (fun f hf _ _ hahead _ => field_reads (hfields.2 f hf) hahead) (fun _ => trivial) trivial hend
    hfields.1 h

/-- Keys are read with or without their clause. -/
theorem keys_read {keys : List Field} (hkeys : ∀ f ∈ keys, f.WellFormed)
    (h : Ahead (keyLexemes keys ++ ts) (skipGap s)) (hend : Ends (· = ',') ts)
    (hby : ∀ s, Ahead ts s → lowerWord s ≠ "by") :
    ∃ found : Option (List Field), found.getD [] = keys
      ∧ Reads 0 (spaced sequenceBy).optional found s ts := by
  cases keys with
  | nil =>
      refine ⟨none, rfl, .optional_none (Reads.bind_eq_none ?_) h⟩
      exact keyword_eq_none (hby _ h)
  | cons f fields =>
      refine ⟨some (f :: fields), rfl, Reads.weaken (k := 1) (.optional_some (.spaced (.named ?_)))⟩
      refine (keyword_reads h rfl rfl).bind fun s₁ _ hahead => ?_
      exact (fieldList_reads ⟨List.cons_ne_nil f fields, hkeys⟩ hahead hend).spaced.weaken

/-! ## Sequences and samples -/

theorem sequenceStep_reads {step : SequenceStep} (hstep : step.WellFormed)
    (h : Ahead (step.lexemes ++ ts) s) (hlen : s.length ≤ depth) (hend : Ends continuesClause ts) :
    Reads 1 (sequenceStep (condition depth)) step s ts := by
  obtain ⟨q, keys⟩ := step
  obtain ⟨hq, hkeys⟩ := hstep
  rw [SequenceStep.lexemes, List.append_assoc] at h
  refine .named ((bracketed_reads hq h hlen).bind fun s₁ _ hahead => ?_)
  obtain ⟨found, rfl, hread⟩ := keys_read hkeys hahead hend.comma
    fun s hs => hend.lowerWord_ne hs (by decide)
  exact hread.bind fun s₂ _ hafter => .pure hafter

theorem ends_steps {α : Type} {f : α → List Lexeme} {steps : List α}
    (hopen : ∀ x ∈ steps, ∀ us, Ends continuesClause (f x ++ us)) (hne : steps ≠ []) :
    Ends continuesClause (steps.flatMap f ++ ts) := by
  obtain ⟨x, steps, rfl⟩ := List.exists_cons_of_ne_nil hne
  rw [List.flatMap_cons, List.append_assoc]
  exact hopen x List.mem_cons_self _

/-- Steps in a row, up to what starts no step. -/
theorem steps_read {α : Type} {p : Reader α} {lex : α → List Lexeme} {steps : List α}
    (hstep : ∀ x ∈ steps, ∀ s us, s.length ≤ depth → Ahead (lex x ++ us) s →
      Ends continuesClause us → Reads 1 p x s us)
    (hopen : ∀ x ∈ steps, ∀ us, Ends continuesClause (lex x ++ us))
    (hfail : ∀ s, Ahead ts s → p.read s = none) (hne : steps ≠ [])
    (h : Ahead (steps.flatMap lex ++ ts) (skipGap s)) (hlen : s.length ≤ depth)
    (hend : Ends continuesClause ts) : Reads 1 (many1 (spaced p) (spaced p)) steps s ts := by
  obtain ⟨x, steps, rfl⟩ := List.exists_cons_of_ne_nil hne
  obtain ⟨hx, hsteps⟩ := List.forall_mem_cons.mp hstep
  obtain ⟨-, hopens⟩ := List.forall_mem_cons.mp hopen
  rw [List.flatMap_cons, List.append_assoc] at h
  have hnext : Ends continuesClause (steps.flatMap lex ++ ts) := by
    cases steps with
    | nil => exact hend
    | cons y steps => exact ends_steps hopens (List.cons_ne_nil y steps)
  have hskip := skipGap_length_le s
  refine .many1 (hx _ _ (by omega) h hnext).spaced fun s₁ h₁ hahead => ?_
  refine many_reads (F := Ends continuesClause) (n := depth) (fun y hy s us hs hahead' hus => ?_)
    hopens hend (fun s hs => hfail _ hs) hahead (by omega)
  have hskip' := skipGap_length_le s
  exact (hsteps y hy _ us (by omega) hahead' hus).spaced

theorem SimpleQuery.ends_bracketed {p : Char → Bool} (hp : p '[' = false) (q : SimpleQuery)
    (us : List Lexeme) : Ends p (q.bracketed ++ us) :=
  .text (halts_cons hp)

theorem bracketed_eq_none (h : Ends (· = '[') ts) (hs : Ahead ts s) (condition : Reader Condition) :
    (bracketed condition).read s = none :=
  Reads.bind_eq_none (read_char_eq_none (h s hs).head_ne)

theorem maxspan_reads {i : Interval} (hi : i.millis?.isSome)
    (h : Ahead (.word "with" :: .word "maxspan" :: .text "=" :: .interval i :: ts) s) :
    ∃ found, Interval.ofToken? found.text = some i ∧ Reads 1 maxspan found s ts := by
  refine Reads.bind_exists (keyword_reads h rfl rfl) fun s₁ _ h₁ => ?_
  refine Reads.bind_exists (.spaced (keyword_reads h₁ rfl rfl).weaken) fun s₂ _ h₂ => ?_
  refine Reads.bind_exists (.spaced (char_reads h₂ rfl).weaken) fun s₃ _ h₃ => ?_
  obtain ⟨found, hfound, hread⟩ := interval_reads hi h₃
  exact ⟨found, hfound, hread.spaced.weaken⟩

/-- A span is read with or without its clause. -/
theorem span_read {span : Option Interval} (hspan : ∀ i, span = some i → i.millis?.isSome)
    (h : Ahead (spanLexemes span ++ ts) (skipGap s)) (hend : Ends continuesClause ts) :
    ∃ found : Option SourceToken, found.map (fun t => Interval.ofToken? t.text) = span.map some
      ∧ Reads 0 (spaced maxspan).optional found s ts := by
  cases span with
  | none =>
      refine ⟨none, rfl, .optional_none (Reads.bind_eq_none ?_) h⟩
      exact hend.keyword_eq_none h (by decide)
  | some i =>
      obtain ⟨found, hfound, hread⟩ := maxspan_reads (hspan i rfl) h
      exact ⟨some found, by simp [hfound], hread.spaced.optional_some.weaken⟩

/-- What follows the keys of a sequence does not go on with them. -/
theorem ends_span (span : Option Interval) (hend : Ends continuesClause ts) :
    Ends (· = ',') (spanLexemes span ++ ts)
      ∧ ∀ s, Ahead (spanLexemes span ++ ts) s → lowerWord s ≠ "by" := by
  cases span with
  | none => exact ⟨hend.comma, fun s hs => hend.lowerWord_ne hs (by decide)⟩
  | some i =>
      refine ⟨.word (word_ne rfl) rfl, fun s hs => ?_⟩
      have hwith : lowerWord s = "with" := hs.lowerWord_word rfl
      rw [hwith]
      decide

theorem bodyOfSource_sequence {keys : List Field} {steps : List SequenceStep}
    {found : Option SourceToken} {span : Option Interval}
    (h : found.map (fun t => Interval.ofToken? t.text) = span.map some) :
    bodyOfSource (.sequence ⟨keys, found, steps⟩) = some (.sequence ⟨keys, span, steps⟩) := by
  cases found with
  | none =>
      cases span with
      | none => rfl
      | some i => cases h
  | some t =>
      cases span with
      | none => cases h
      | some i =>
          have ht : Interval.ofToken? t.text = some i := Option.some.inj h
          rw [bodyOfSource, ht]
          rfl

theorem sequenceQuery_reads {q : SequenceQuery Interval}
    (hq : q.WellFormed fun i => i.millis?.isSome) (h : Ahead (q.lexemes ++ ts) s)
    (hlen : s.length ≤ depth) (hend : Ends continuesClause ts) (hopen : Ends (· = '[') ts) :
    ∃ found : SequenceQuery SourceToken, bodyOfSource (.sequence found) = some (.sequence q)
      ∧ Reads 1 (sequenceQuery (condition depth)) found s ts := by
  obtain ⟨keys, span, steps⟩ := q
  obtain ⟨hkeys, hspan, hne, hsteps⟩ := hq
  simp only [SequenceQuery.lexemes, List.cons_append, List.append_assoc] at h
  have hopens : ∀ x ∈ steps, ∀ us, Ends continuesClause (x.lexemes ++ us) := by
    intro x _ us
    rw [SequenceStep.lexemes, List.append_assoc]
    exact x.query.ends_bracketed rfl _
  have hsteps' : Ends continuesClause (steps.flatMap SequenceStep.lexemes ++ ts) :=
    ends_steps hopens hne
  refine Reads.bind_exists (keyword_reads h rfl rfl) fun s₁ h₁ hahead₁ => ?_
  obtain ⟨hcomma, hby⟩ := ends_span span hsteps'
  obtain ⟨foundKeys, rfl, hreadKeys⟩ := keys_read hkeys hahead₁ hcomma hby
  refine Reads.bind_exists hreadKeys fun s₂ h₂ hahead₂ => ?_
  obtain ⟨foundSpan, hfound, hreadSpan⟩ := span_read hspan hahead₂ hsteps'
  refine Reads.bind_exists hreadSpan fun s₃ h₃ hahead₃ => ?_
  refine ⟨⟨_, foundSpan, steps⟩, bodyOfSource_sequence hfound, ?_⟩
  refine Reads.bind_rest (steps_read (fun x hx s us hs hahead hus => ?_) hopens (fun s hs => ?_) hne
    hahead₃ (by omega : s₃.length ≤ depth) hend) fun s₄ _ hafter => .pure hafter
  · exact sequenceStep_reads (hsteps x hx) hahead hs hus
  · exact Reads.bind_eq_none (bracketed_eq_none hopen hs _)

theorem sampleQuery_reads {q : SampleQuery} (hq : q.WellFormed) (h : Ahead (q.lexemes ++ ts) s)
    (hlen : s.length ≤ depth) (hend : Ends continuesClause ts) (hopen : Ends (· = '[') ts) :
    Reads 1 (sampleQuery (condition depth)) q s ts := by
  obtain ⟨keys, steps⟩ := q
  obtain ⟨hkeys, hne, hsteps⟩ := hq
  simp only [SampleQuery.lexemes, List.cons_append, List.append_assoc] at h
  have hopens : ∀ x ∈ steps, ∀ us, Ends continuesClause (x.bracketed ++ us) :=
    fun x _ us => x.ends_bracketed rfl us
  refine .named ((keyword_reads h rfl rfl).bind fun s₁ h₁ hahead₁ => ?_)
  refine (Reads.spaced (keyword_reads hahead₁ rfl rfl)).bind_rest fun s₂ h₂ hahead₂ => ?_
  refine (fieldList_reads hkeys hahead₂ (ends_steps hopens hne).comma).spaced.bind_rest
    fun s₃ h₃ hahead₃ => ?_
  have hskip := skipGap_length_le s₂
  refine Reads.bind_rest (steps_read (fun x hx s us hs hahead _ => ?_) hopens (fun s hs => ?_) hne
    hahead₃ (by omega : s₃.length ≤ depth) hend) fun s₄ _ hafter => .pure hafter
  · exact bracketed_reads (hsteps x hx) hahead hs
  · exact bracketed_eq_none hopen hs _

theorem body_reads {b : Body Interval} (hb : b.WellFormed fun i => i.millis?.isSome)
    (h : Ahead (b.lexemes ++ ts) s) (hlen : s.length ≤ depth) (hend : Ends continuesClause ts)
    (hopen : Ends (· = '[') ts) :
    ∃ found, bodyOfSource found = some b ∧ Reads 1 (body (condition depth)) found s ts := by
  cases b with
  | simple q =>
      obtain ⟨hsequence, hsample⟩ := lowerWord_category hb.1 h
      have hread := simpleQuery_reads hb h hlen hend
      refine ⟨.simple q, rfl, .orElse_right ?_ (.orElse_right ?_ hread.map)⟩
      · exact Reads.bind_eq_none (Reads.bind_eq_none (keyword_eq_none hsequence))
      · exact Reads.bind_eq_none (Reads.bind_eq_none (keyword_eq_none hsample))
  | sequence q =>
      obtain ⟨found, hfound, hread⟩ := sequenceQuery_reads hb h hlen hend hopen
      exact ⟨.sequence found, hfound, .orElse_left (.map hread)⟩
  | sample q =>
      have hlow : lowerWord s = "sample" := Ahead.lowerWord_word h rfl
      have hread := sampleQuery_reads hb h hlen hend hopen
      refine ⟨.sample q, rfl, .orElse_right ?_ (.orElse_left hread.map)⟩
      exact Reads.bind_eq_none (Reads.bind_eq_none (keyword_eq_none (by rw [hlow]; decide)))

/-! ## Pipes and whole texts -/

theorem pipe_reads {p : Pipe Nat} (hp : p.WellFormed (· < Quantity.limit))
    (h : Ahead (p.lexemes ++ ts) s) (hlen : s.length ≤ depth) (hend : Ends continuesClause ts) :
    ∃ found, pipeOfSource found = some p ∧ Reads 1 (pipe (condition depth)) found s ts := by
  refine Reads.bind_exists (char_reads h rfl) fun s₁ h₁ hahead => ?_
  obtain ⟨hall, hlower, -⟩ := p.name_word
  have hlow : lowerWord (skipGap s₁) = p.name := (hahead.lowerWord_word hall).trans hlower
  -- the alternatives before the pipe's own fail on its name
  have hother : ∀ {symbol : Symbol} {w : String} {next : Unit → Reader (Pipe SourceToken)},
      p.name ≠ w → (keyword symbol w >>= next).read (skipGap s₁) = none :=
    fun hne => Reads.bind_eq_none (keyword_eq_none (by rw [hlow]; exact hne))
  have hskip := skipGap_length_le s₁
  have hword : ∀ {symbol : Symbol}, Reads 1 (keyword symbol p.name) () (skipGap s₁) _ :=
    keyword_reads hahead hall hlower
  cases p with
  | head n =>
      obtain ⟨found, hfound, hread⟩ : ∃ found, pipeOfSource found = some (.head n)
          ∧ Reads 1 headPipe found (skipGap s₁) ts := Reads.bind_exists hword fun s₂ _ hcount => by
        obtain ⟨t, ht, hread⟩ := count_reads hp hcount
        exact ⟨.head t, by simp [pipeOfSource, ht], hread.spaced.map.weaken⟩
      exact ⟨found, hfound, hread.orElse_left.spaced.weaken⟩
  | tail n =>
      obtain ⟨found, hfound, hread⟩ : ∃ found, pipeOfSource found = some (.tail n)
          ∧ Reads 1 tailPipe found (skipGap s₁) ts := Reads.bind_exists hword fun s₂ _ hcount => by
        obtain ⟨t, ht, hread⟩ := count_reads hp hcount
        exact ⟨.tail t, by simp [pipeOfSource, ht], hread.spaced.map.weaken⟩
      refine ⟨found, hfound, Reads.spaced (.orElse_right ?_ hread.orElse_left.weaken)⟩
      exact hother (by decide : "tail" ≠ "head")
  | count =>
      refine ⟨.count, rfl, .spaced ?_⟩
      refine .orElse_right (hother (by decide : "count" ≠ "head")) <|
        .orElse_right (hother (by decide : "count" ≠ "tail")) <| .orElse_left ?_
      exact hword.bind_rest fun s₂ _ hafter => .pure hafter
  | unique fields =>
      refine ⟨.unique fields, rfl, .spaced ?_⟩
      refine .orElse_right (hother (by decide : "unique" ≠ "head")) <|
        .orElse_right (hother (by decide : "unique" ≠ "tail")) <|
        .orElse_right (hother (by decide : "unique" ≠ "count")) <| .orElse_left ?_
      exact hword.bind_rest fun s₂ _ hfields =>
        (fieldList_reads hp hfields hend.comma).spaced.map.weaken
  | filter c =>
      refine ⟨.filter c, rfl, .spaced ?_⟩
      refine .orElse_right (hother (by decide : "filter" ≠ "head")) <|
        .orElse_right (hother (by decide : "filter" ≠ "tail")) <|
        .orElse_right (hother (by decide : "filter" ≠ "count")) <|
        .orElse_right (hother (by decide : "filter" ≠ "unique")) <| .orElse_left ?_
      refine hword.bind_rest fun s₂ h₂ hcondition => ?_
      have hskip₂ := skipGap_length_le s₂
      exact (condition_reads hp depth _ ts hcondition (by omega) hend.condition).spaced.map.weaken
  | sort fields =>
      refine ⟨.sort fields, rfl, .spaced ?_⟩
      refine .orElse_right (hother (by decide : "sort" ≠ "head")) <|
        .orElse_right (hother (by decide : "sort" ≠ "tail")) <|
        .orElse_right (hother (by decide : "sort" ≠ "count")) <|
        .orElse_right (hother (by decide : "sort" ≠ "unique")) <|
        .orElse_right (hother (by decide : "sort" ≠ "filter")) ?_
      exact hword.bind_rest fun s₂ _ hfields =>
        (fieldList_reads hp hfields hend.comma).spaced.map.weaken

theorem Pipe.ends {p : Char → Bool} (hp : p '|' = false) (pipes : List (Pipe Nat)) :
    Ends p (pipes.flatMap Pipe.lexemes) := by
  cases pipes with
  | nil => exact .nil
  | cons pipe pipes => exact .text (halts_cons hp)

theorem mapM_pipeOfSource {pipes : List (Pipe Nat)} {found : List (Pipe SourceToken)}
    (h : List.Forall₂ (fun p t => pipeOfSource t = some p) pipes found) :
    found.mapM pipeOfSource = some pipes := by
  induction h with
  | nil => rfl
  | cons hp _ ih => simp [List.mapM_cons, hp, ih]

theorem queryOf_reads {q : Query} (hq : q.WellFormed) (h : Ahead q.lexemes (skipGap s))
    (hlen : s.length ≤ depth) :
    ∃ source : SourceQuery, source.finish? = some q
      ∧ (queryOf (condition depth)).read s = some (source, []) := by
  have hskip := skipGap_length_le s
  obtain ⟨body, hbody, s₁, hread₁, h₁, hahead⟩ :=
    body_reads hq.body h (by omega : (skipGap s).length ≤ depth) (Pipe.ends rfl q.pipes)
      (Pipe.ends rfl q.pipes)
  rw [← List.append_nil (List.flatMap _ _)] at hahead
  obtain ⟨pipes, hpipes, s₂, hread₂, -, hend⟩ := many_reads_rel
    (R := fun p t => pipeOfSource t = some p) (p := spaced (pipe (condition depth)))
    (F := Ends continuesClause) (n := depth)
    (fun p hp s us hs hahead hus => by
      have hskip := skipGap_length_le s
      obtain ⟨found, hfound, hread⟩ := pipe_reads (hq.pipes p hp) hahead
        (by omega : (skipGap s).length ≤ depth) hus
      exact ⟨found, hfound, hread.spaced⟩)
    (fun p _ us => .text (halts_cons rfl)) .nil
    (fun s hs => Reads.bind_eq_none (read_char_eq_none (by rw [hs.nil_eq]; simp)))
    hahead (by omega : s₁.length ≤ depth)
  refine ⟨⟨body, pipes⟩, ?_, ?_⟩
  · simp [SourceQuery.finish?, hbody, mapM_pipeOfSource hpipes]
  · have hnil : endOfInput.read (skipGap s₂) = some ((), []) := by rw [hend.nil_eq]; rfl
    simp [queryOf, hread₁, hread₂, hnil]

end Clauses

/-! ## The headline theorem -/

theorem ofChars_of_spelledBy {q : Query} (hq : q.WellFormed) {text : List Char}
    (h : q.SpelledBy text) : Query.ofChars text = .ok q := by
  obtain ⟨gap, after, htext, hgap, hspells⟩ := h
  have hahead : Ahead q.lexemes after := ⟨hspells, hq.allProper⟩
  have hskip : skipGap text = after := by
    rw [htext, hgap.skipGap_append, hahead.skipGap_eq]
  rw [← hskip] at hahead
  obtain ⟨source, hfinish, hread⟩ : ∃ source : SourceQuery, source.finish? = some q ∧
      (query text).read text = some (source, []) := queryOf_reads hq hahead (Nat.le_succ _)
  exact Query.ofChars_eq_ok_iff.mpr ⟨source, [], hread, hfinish⟩

/-- Every well-formed query is read from some text. -/
theorem exists_parse_eq {q : Query} (hq : q.WellFormed) : ∃ text, parse text = .ok q := by
  obtain ⟨text, htext⟩ := q.exists_spelledBy
  refine ⟨String.ofList text, ?_⟩
  unfold parse Query.ofText
  rw [String.toList_ofList, ofChars_of_spelledBy hq htext]

/-- **Completeness of reading.** Every well-formed query is read from every
spelling of it. -/
theorem parse_of_spelledBy {q : Query} (hq : q.WellFormed) {text : String}
    (h : q.SpelledBy text.toList) : parse text = .ok q := by
  unfold parse Query.ofText
  rw [ofChars_of_spelledBy hq h]

theorem parse_of_spelledBy_commented :
    ∃ q : Query, q.WellFormed
      ∧ q.SpelledBy "ANY/**/where a\n/ 2==\"x\"//e\n|Head 05".toList
      ∧ parse "ANY/**/where a\n/ 2==\"x\"//e\n|Head 05" = .ok q := by
  refine ⟨⟨.simple ⟨.any, some (.comparison .eq
      (.arith .divide (.field ⟨"a", false⟩) (.literal (.number "2")))
      (.literal (.string "\"x\"")))⟩, [.head 5]⟩, ?hquery, ?htext,
    parse_of_spelledBy ?hquery ?htext⟩
  case hquery =>
    refine ⟨⟨trivial, ?_⟩, ?_⟩
    · rintro c ⟨⟩
      have hfield : IsIdent "a" := by decide
      have hstring : IsStringToken "\"x\"".toList :=
        .quoted (.plain (by decide) (by decide) .nil : QuotedBody ['x'])
      exact ⟨⟨hfield, isNumberToken_run rfl, rfl, rfl⟩, hstring⟩
    · intro p hp
      obtain rfl := List.mem_singleton.mp hp
      show 5 < Quantity.limit
      decide
  case htext =>
    have hblock : IsGap "/**/".toList := .block (by decide : ¬ ['*', '/'] <:+: [] ++ ['*']) .nil
    have hspace : IsGap [' '] := .blank rfl .nil
    have hbreak : IsGap ['\n'] := .blank rfl .nil
    have hline : IsGap "//e\n".toList :=
      .line (by simp [isLineEnd] : ∀ d ∈ ['e'], isLineEnd d = false)
        (rfl : isLineEnd '\n' = true) .nil
    have hspells : Spells [.word "any", .word "where", .text "a", .text "/", .text "2", .text "==",
        .text "\"x\"", .text "|", .word "head", .count 5]
        ("ANY".toList ++ ("/**/".toList ++ ("where".toList ++ ([' '] ++ ("a".toList ++ (['\n']
        ++ ("/".toList ++ ([' '] ++ ("2".toList ++ ([] ++ ("==".toList ++ ([]
        ++ ("\"x\"".toList ++ ("//e\n".toList ++ ("|".toList ++ ([] ++ ("Head".toList ++ ([' ']
        ++ ("05".toList ++ ([] ++ [])))))))))))))))))))) :=
      .cons rfl hblock (by decide) <| .cons rfl hspace (by decide) <|
      .cons rfl hbreak (by decide) <|
      .cons rfl hspace (by decide) <| .cons rfl .nil (by decide) <| .cons rfl .nil (by decide) <|
      .cons rfl hline (by decide) <| .cons rfl .nil (by decide) <| .cons rfl hspace (by decide) <|
      .cons ⟨rfl, rfl⟩ .nil (by decide) .nil
    exact ⟨[], _, rfl, .nil, hspells⟩

end EventQuery
