import EventQuery.Proofs.FilterStages
import EventQuery.Proofs.Tokens

/-!
# Which texts have no filter, and why

Whether a text has a filter is decided by reading it. A text that cannot
be read is refused with the errors of the reader, a query of another kind
than a simple one without pipes is refused by its kind, and a simple query
is refused if it mentions an optional field, with one message for each
mention. Every other text has a filter, whatever the options.

Two facts carry this. Every number token of the language can be read as a
number (`Literal.evalNumber?_isSome`), so that lowering never refuses one.
And lowering meets exactly the fields that a query lists
(`SimpleQuery.WellFormed.faults`), although the two walk the query on
their own.
-/

namespace EventQuery

open Grammar

/-! ## Number tokens are numbers -/

namespace Numeral

theorem splitSign_of_run {digits : List Char} (h : Digits.isRun digits = true)
    (rest : List Char) : splitSign (digits ++ rest) = (false, digits ++ rest) := by
  obtain ⟨d, ds, rfl, hdigit⟩ := exists_digit_of_isRun h
  have hminus : d ≠ '-' := by rintro rfl; revert hdigit; decide
  have hplus : d ≠ '+' := by rintro rfl; revert hdigit; decide
  rw [List.cons_append, splitSign]
  · rintro s heq
    exact hminus (List.cons.inj heq).1
  · rintro s heq
    exact hplus (List.cons.inj heq).1

theorem splitSign_snd {minus digits : List Char} (hminus : minus = [] ∨ minus = ['-'])
    (hrun : Digits.isRun digits = true) (rest : List Char) :
    (splitSign (minus ++ (digits ++ rest))).2 = digits ++ rest := by
  rcases hminus with rfl | rfl
  · rw [List.nil_append, splitSign_of_run hrun]
  · rfl

theorem exponentValue?_isSome {sign digits : List Char} (hsign : IsExponentSign sign)
    (hrun : Digits.isRun digits = true) : (exponentValue? (sign ++ digits)).isSome := by
  have hsnd : (splitSign (sign ++ digits)).2 = digits := by
    rcases hsign with rfl | rfl | rfl
    · simpa using congrArg Prod.snd (splitSign_of_run hrun [])
    · rfl
    · rfl
  simp [exponentValue?, hsnd, hrun]

theorem exponentPart?_isSome {exponent : List Char} (h : IsExponent exponent) :
    (exponentPart? exponent).isSome := by
  rcases h with rfl | ⟨mark, sign, digits, rfl, hmark, hsign, hrun⟩
  · rfl
  · have hmark' : (mark = 'e' || mark = 'E') = true := by simpa using hmark
    rw [List.cons_append, exponentPart?, if_pos hmark']
    exact exponentValue?_isSome hsign hrun

theorem splitFraction_snd {fraction exponent : List Char} (hfraction : IsFraction fraction)
    (hafter : Halts Char.isDigit exponent) (hpoint : exponent.head? ≠ some '.') :
    (splitFraction (fraction ++ exponent)).2 = exponent := by
  rcases hfraction with rfl | ⟨digits, rfl, hrun⟩
  · rw [List.nil_append, splitFraction]
    rintro s rfl
    exact hpoint rfl
  · exact dropWhile_run (isRun_iff.mp hrun).2 hafter

/-- Every number token is a decimal. -/
theorem parts?_isSome {s : List Char} (h : IsNumberToken s) : (parts? s).isSome := by
  obtain ⟨minus, digits, fraction, exponent, rfl, hminus, hrun, hfraction, hexponent⟩ := h
  have hend : Halts isWordChar [] := fun c hc => by cases hc
  have hafter : Halts Char.isDigit exponent := by
    simpa using halts_isDigit_exponent hexponent hend
  have hpoint : exponent.head? ≠ some '.' := by
    simpa using head?_exponent_ne_point hexponent hend
  have hbody : (splitSign (minus ++ digits ++ fraction ++ exponent)).2
      = digits ++ (fraction ++ exponent) := by
    simpa only [List.append_assoc] using splitSign_snd hminus hrun (fraction ++ exponent)
  obtain ⟨hne, hdigits⟩ := isRun_iff.mp hrun
  have hrest := halts_isDigit_fraction hfraction hafter
  obtain ⟨e, he⟩ := Option.isSome_iff_exists.mp (exponentPart?_isSome hexponent)
  simp only [parts?, hbody, takeWhile_run hdigits hrest, dropWhile_run hdigits hrest,
    splitFraction_snd hfraction hafter hpoint, he]
  simp [hne]

end Numeral

/-- Every number token has a value. -/
theorem Literal.evalNumber?_isSome {raw : String} (h : IsNumberToken raw.toList) :
    (evalNumber? raw).isSome := by
  obtain ⟨p, hp⟩ := Option.isSome_iff_exists.mp (Numeral.parts?_isSome h)
  unfold evalNumber?
  cases Numeral.int64? raw.toList with
  | some n => rfl
  | none => simp [Numeral.binary64?, hp]

/-! ## Lowering refuses the optional fields -/

theorem Literal.WellFormed.faults {l : Literal} (h : l.WellFormed) : l.faults = [] := by
  cases l with
  | number raw => simp [Literal.faults, Literal.evalNumber?_isSome h]
  | _ => rfl

theorem Value.listFaults_eq_flatMap (vs : List Value) : listFaults vs = vs.flatMap faults := by
  induction vs with
  | nil => rfl
  | cons v vs ih => rw [listFaults, ih, List.flatMap_cons]

theorem Value.WellFormed.faults {v : Value} (h : v.WellFormed) :
    v.faults = v.fields.flatMap Field.faults := by
  induction v with
  | null => rfl
  | literal l => exact Literal.WellFormed.faults h
  | field f => simp [Value.faults, Value.fields]
  | call name args ih =>
      have hargs := allWellFormed_iff.mp h.2.2
      rw [Value.faults, Value.fields, listFaults_eq_flatMap, listFields_eq_flatMap,
        List.flatMap_assoc]
      exact List.flatMap_congr fun v hv => ih v hv (hargs v hv)
  | group v ih => exact ih h
  | arith op left right ihl ihr =>
      rw [Value.faults, Value.fields, List.flatMap_append, ihl h.1, ihr h.2.1]

theorem LookupTarget.WellFormed.faults {target : LookupTarget} (h : target.WellFormed) :
    target.faults = target.fields.flatMap Field.faults := by
  cases target with
  | list items => exact List.flatMap_eq_nil_iff.mpr fun l hl => (h.2 l hl).faults
  | value v => exact h.1.faults

theorem Condition.WellFormed.faults {c : Condition} (h : c.WellFormed) :
    c.faults = c.fields.flatMap Field.faults := by
  induction c with
  | boolean raw => rfl
  | not c ih => exact ih h.1
  | group c ih => exact ih h
  | comparison op left right =>
      rw [Condition.faults, Condition.fields, List.flatMap_append, h.1.faults, h.2.faults]
  | lookup field negated op target =>
      rw [Condition.faults, Condition.fields, List.flatMap_cons, h.2.faults]
  | call name args => exact Value.WellFormed.faults (v := .call name args) h
  | notCall name args => exact Value.WellFormed.faults (v := .call name args) h
  | logical op left right ihl ihr =>
      rw [Condition.faults, Condition.fields, List.flatMap_append, ihl h.1, ihr h.2.1]

/-- Lowering refuses a mention of a field if it is optional, and nothing
else. -/
theorem SimpleQuery.WellFormed.faults {q : SimpleQuery} (h : q.WellFormed) :
    q.faults = q.fields.flatMap Field.faults := by
  unfold SimpleQuery.faults SimpleQuery.fields
  cases hc : q.condition with
  | none => rfl
  | some c => exact (h.2 c hc).faults

theorem flatMap_faults (fields : List Field) : fields.flatMap Field.faults
    = List.replicate (fields.countP Field.optional) .optionalField := by
  induction fields with
  | nil => rfl
  | cons f fields ih =>
      rw [List.flatMap_cons, ih, Field.faults, List.countP_cons]
      cases f.optional <;> simp [List.replicate_succ]

/-! ## The outcome of a text -/

/-- A simple query without pipes. -/
def Query.IsPlain (q : Query) : Prop := (∃ s, q.body = .simple s) ∧ q.pipes = []

/-- The simple queries that a query is made of. -/
def Body.events {ι : Type} : Body ι → List SimpleQuery
  | .simple q => [q]
  | .sequence q => q.steps.map SequenceStep.query
  | .sample q => q.steps

theorem Body.WellFormed.events {ι : Type} {span : ι → Prop} {b : Body ι} (h : b.WellFormed span) :
    ∀ s ∈ b.events, s.WellFormed := by
  cases b with
  | simple q =>
      intro s hs
      obtain rfl := List.mem_singleton.mp hs
      exact h
  | sequence q =>
      intro s hs
      obtain ⟨step, hstep, rfl⟩ := List.mem_map.mp hs
      exact (SequenceQuery.WellFormed.steps h step hstep).1
  | sample q => exact SampleQuery.WellFormed.steps h

/-- Whatever the kind of a query that was read, lowering would refuse no
number in it. -/
theorem badNumber_not_mem_faults {text : String} {q : Query} (hread : Query.ofText text = .ok q) :
    ∀ s ∈ q.body.events, ∀ raw, .badNumber raw ∉ s.faults := by
  intro s hs raw hraw
  have hq : s.WellFormed := Body.WellFormed.events (ofText_wellFormed hread).body s hs
  rw [hq.faults, flatMap_faults] at hraw
  cases List.eq_of_mem_replicate hraw

theorem Query.simple?_of_not_isPlain {q : Query} (h : ¬ q.IsPlain) :
    ∃ kind, q.simple? = .error (.unsupported kind) := by
  obtain ⟨body, pipes⟩ := q
  cases body with
  | simple s =>
      cases pipes with
      | nil => exact absurd ⟨⟨s, rfl⟩, rfl⟩ h
      | cons pipe pipes => exact ⟨_, rfl⟩
  | sequence s => exact ⟨_, rfl⟩
  | sample s => exact ⟨_, rfl⟩

theorem SimpleQuery.lower_of_faults {q : SimpleQuery} (h : q.faults ≠ []) (categoryField : String) :
    q.lower categoryField = .error (.lowering (q.faults.map LoweringFault.message)) := by
  unfold SimpleQuery.lower
  split
  · next hnil => exact absurd hnil h
  · rfl

section

variable {o : Options} {text : String}

theorem lowerText_of_read {q : Query} (hread : Query.ofText text = .ok q) (categoryField : String) :
    lowerText text categoryField = q.simple? >>= fun s => s.lower categoryField := by
  unfold lowerText parse
  rw [hread]
  rfl

/-- A text that is not lowered has no filter, for the same reason. -/
theorem Filter.ofText_of_lowerText {x : Failure} (h : lowerText text o.categoryField = .error x) :
    Filter.ofText o text = .error x := by
  unfold Filter.ofText clauseText
  rw [h]
  rfl

theorem Filter.ofText_malformed {errors : List SyntaxError}
    (hread : Query.ofText text = .error errors) :
    Filter.ofText o text = .error (.malformed errors) := by
  apply ofText_of_lowerText
  unfold lowerText parse
  rw [hread]
  rfl

theorem Filter.ofText_unsupported {q : Query} (hread : Query.ofText text = .ok q)
    (hplain : ¬ q.IsPlain) : ∃ kind, Filter.ofText o text = .error (.unsupported kind) := by
  obtain ⟨kind, hkind⟩ := Query.simple?_of_not_isPlain hplain
  refine ⟨kind, ofText_of_lowerText ?_⟩
  rw [lowerText_of_read hread, hkind]
  rfl

/-- The faults of a simple query that was read, by its optional fields. -/
theorem faults_of_read {s : SimpleQuery} (hread : Query.ofText text = .ok ⟨.simple s, []⟩) :
    s.faults = .replicate (s.fields.countP Field.optional) .optionalField := by
  have hs : s.WellFormed := (ofText_wellFormed hread).body
  rw [hs.faults, flatMap_faults]

theorem Filter.ofText_lowering {s : SimpleQuery} (hread : Query.ofText text = .ok ⟨.simple s, []⟩)
    (hoptional : ∃ f ∈ s.fields, f.optional = true) :
    Filter.ofText o text = .error (.lowering
      (.replicate (s.fields.countP Field.optional) "optional fields are not supported")) := by
  have hcount : s.fields.countP Field.optional ≠ 0 :=
    (List.countP_pos_iff.mpr hoptional).ne'
  have hfaults : s.faults ≠ [] := by
    rw [faults_of_read hread]
    simpa using hcount
  apply ofText_of_lowerText
  rw [lowerText_of_read hread]
  refine (SimpleQuery.lower_of_faults hfaults _).trans ?_
  rw [faults_of_read hread, List.map_replicate]
  rfl

theorem Filter.ofText_ok {s : SimpleQuery} (hread : Query.ofText text = .ok ⟨.simple s, []⟩)
    (hnone : ∀ f ∈ s.fields, f.optional = false) : ∃ f, Filter.ofText o text = .ok f := by
  have hcount : s.fields.countP Field.optional = 0 :=
    List.countP_eq_zero.mpr fun f hf => by simp [hnone f hf]
  have hfaults : s.faults = [] := by
    rw [faults_of_read hread, hcount]
    rfl
  have hparse : parse text = .ok ⟨.simple s, []⟩ := by
    unfold parse
    rw [hread]
  exact ⟨_, Filter.ofText_of_parse hparse hfaults⟩

end

/-- The four things that can become of a text. -/
theorem Filter.ofText_cases (o : Options) (text : String) :
    (∃ errors, Query.ofText text = .error errors ∧
      Filter.ofText o text = .error (.malformed errors)) ∨
    (∃ q kind, Query.ofText text = .ok q ∧ ¬ q.IsPlain ∧
      Filter.ofText o text = .error (.unsupported kind)) ∨
    (∃ q, Query.ofText text = .ok q ∧ q.IsPlain ∧ (∃ f ∈ q.fields, f.optional = true) ∧
      Filter.ofText o text = .error (.lowering
        (.replicate (q.fields.countP Field.optional) "optional fields are not supported"))) ∨
    ∃ q f, Query.ofText text = .ok q ∧ q.IsPlain ∧ (∀ f ∈ q.fields, f.optional = false) ∧
      Filter.ofText o text = .ok f := by
  cases hread : Query.ofText text with
  | error errors => exact .inl ⟨errors, rfl, ofText_malformed hread⟩
  | ok q =>
      by_cases hplain : q.IsPlain
      · obtain ⟨body, pipes⟩ := q
        obtain ⟨⟨s, rfl⟩, rfl⟩ := id hplain
        have hfields : QueryOf.fields (⟨.simple s, []⟩ : Query) = s.fields := List.append_nil _
        by_cases hoptional : ∃ f ∈ s.fields, f.optional = true
        · refine .inr (.inr (.inl ⟨_, rfl, hplain, ?_⟩))
          rw [hfields]
          exact ⟨hoptional, ofText_lowering hread hoptional⟩
        · have hnone : ∀ f ∈ s.fields, f.optional = false := by simpa using hoptional
          obtain ⟨f, hf⟩ := ofText_ok (o := o) hread hnone
          refine .inr (.inr (.inr ⟨_, f, rfl, hplain, ?_, hf⟩))
          rwa [hfields]
      · obtain ⟨kind, hkind⟩ := ofText_unsupported (o := o) hread hplain
        exact .inr (.inl ⟨q, kind, rfl, hplain, hkind⟩)

/-! Each outcome excludes the other three, so each is told by its reason. -/

section

variable (o : Options) (text : String)

theorem Filter.ofText_malformed_iff (errors : List SyntaxError) :
    Filter.ofText o text = .error (.malformed errors) ↔ Query.ofText text = .error errors := by
  rcases ofText_cases o text with ⟨errors', hread, hfilter⟩ | ⟨q, kind, hread, -, hfilter⟩ |
    ⟨q, hread, -, -, hfilter⟩ | ⟨q, f, hread, -, -, hfilter⟩
  all_goals simp [hread, hfilter]

theorem Filter.ofText_unsupported_iff :
    (∃ kind, Filter.ofText o text = .error (.unsupported kind)) ↔
      ∃ q, Query.ofText text = .ok q ∧ ¬ q.IsPlain := by
  rcases ofText_cases o text with ⟨errors, hread, hfilter⟩ | ⟨q, kind, hread, hplain, hfilter⟩ |
    ⟨q, hread, hplain, -, hfilter⟩ | ⟨q, f, hread, hplain, -, hfilter⟩
  · simp [hread, hfilter]
  all_goals simp [hread, hfilter, hplain]

theorem Filter.ofText_lowering_iff (messages : List String) :
    Filter.ofText o text = .error (.lowering messages) ↔
      ∃ q, Query.ofText text = .ok q ∧ q.IsPlain ∧ (∃ f ∈ q.fields, f.optional = true) ∧
        messages =
          .replicate (q.fields.countP Field.optional) "optional fields are not supported" := by
  rcases ofText_cases o text with ⟨errors, hread, hfilter⟩ | ⟨q, kind, hread, hplain, hfilter⟩ |
    ⟨q, hread, hplain, hoptional, hfilter⟩ | ⟨q, f, hread, hplain, hnone, hfilter⟩
  · simp [hread, hfilter]
  · simp [hread, hfilter, hplain]
  · rw [hfilter]
    constructor
    · intro h
      cases h
      exact ⟨q, hread, hplain, hoptional, rfl⟩
    · rintro ⟨q', hread', -, -, rfl⟩
      cases hread.symm.trans hread'
      rfl
  · rw [hfilter]
    refine iff_of_false (by simp) ?_
    rintro ⟨q', hread', -, ⟨f, hf, hoptional⟩, -⟩
    cases hread.symm.trans hread'
    simp [hnone f hf] at hoptional

theorem Filter.exists_ofText_iff : (∃ f, Filter.ofText o text = .ok f) ↔
    ∃ q, Query.ofText text = .ok q ∧ q.IsPlain ∧ ∀ f ∈ q.fields, f.optional = false := by
  rcases ofText_cases o text with ⟨errors, hread, hfilter⟩ | ⟨q, kind, hread, hplain, hfilter⟩ |
    ⟨q, hread, hplain, hoptional, hfilter⟩ | ⟨q, f, hread, hplain, hnone, hfilter⟩
  · simp [hread, hfilter]
  · simp [hread, hfilter, hplain]
  · simpa [hread, hfilter, hplain] using hoptional
  · exact ⟨fun _ => ⟨q, hread, hplain, hnone⟩, fun _ => ⟨f, hfilter⟩⟩

theorem Filter.ofText_ne_degraded (messages : List String) :
    Filter.ofText o text ≠ .error (.degraded messages) := by
  rcases ofText_cases o text with ⟨errors, -, hfilter⟩ | ⟨q, kind, -, -, hfilter⟩ |
    ⟨q, -, -, -, hfilter⟩ | ⟨q, f, -, -, -, hfilter⟩
  all_goals simp [hfilter]

end

/-- **Failures are classified.** What becomes of a text is decided by
reading it: it is refused with the errors of the reader if it cannot be
read, by its kind if it is no simple query without pipes, and with one
message for each optional field it mentions if there is one; otherwise it
has a filter. Soft errors refuse nothing, no number of a query that was
read is refused, and the options have no say in whether there is a
filter. -/
theorem ofText_outcome (o : Options) (text : String) :
    (∀ errors, Filter.ofText o text = .error (.malformed errors) ↔
      Query.ofText text = .error errors) ∧
    ((∃ kind, Filter.ofText o text = .error (.unsupported kind)) ↔
      ∃ q, Query.ofText text = .ok q ∧ ¬ q.IsPlain) ∧
    (∀ messages, Filter.ofText o text = .error (.lowering messages) ↔
      ∃ q, Query.ofText text = .ok q ∧ q.IsPlain ∧ (∃ f ∈ q.fields, f.optional = true) ∧
        messages =
          .replicate (q.fields.countP Field.optional) "optional fields are not supported") ∧
    ((∃ f, Filter.ofText o text = .ok f) ↔
      ∃ q, Query.ofText text = .ok q ∧ q.IsPlain ∧ ∀ f ∈ q.fields, f.optional = false) ∧
    (∀ messages, Filter.ofText o text ≠ .error (.degraded messages)) ∧
    (∀ q, Query.ofText text = .ok q →
      ∀ s ∈ q.body.events, ∀ raw, .badNumber raw ∉ s.faults) ∧
    ∀ o', (∃ f, Filter.ofText o' text = .ok f) ↔ ∃ f, Filter.ofText o text = .ok f := by
  have hsame : ∀ o', (∃ f, Filter.ofText o' text = .ok f) ↔ ∃ f, Filter.ofText o text = .ok f :=
    fun o' => (Filter.exists_ofText_iff o' text).trans (Filter.exists_ofText_iff o text).symm
  exact ⟨Filter.ofText_malformed_iff o text, Filter.ofText_unsupported_iff o text,
    Filter.ofText_lowering_iff o text, Filter.exists_ofText_iff o text,
    Filter.ofText_ne_degraded o text, fun _ => badNumber_not_mem_faults, hsame⟩

theorem ofText_outcome_optional :
    Query.ofText "any where ?a == 1e5 + length(?b, c)" = .ok ⟨.simple ⟨.any, some (.comparison .eq
      (.field ⟨"a", true⟩) (.arith .add (.literal (.number "1e5"))
        (.call ⟨.length, false⟩ [.field ⟨"b", true⟩, .field ⟨"c", false⟩])))⟩, []⟩ ∧
    Filter.ofText {} "any where ?a == 1e5 + length(?b, c)" = .error (.lowering
      ["optional fields are not supported", "optional fields are not supported"]) :=
  have hread : Query.ofText "any where ?a == 1e5 + length(?b, c)" = .ok
      ⟨.simple ⟨.any, some (.comparison .eq (.field ⟨"a", true⟩) (.arith .add
        (.literal (.number "1e5"))
        (.call ⟨.length, false⟩ [.field ⟨"b", true⟩, .field ⟨"c", false⟩])))⟩, []⟩ :=
    Query.ofChars_eq_ok_iff.mpr ⟨_, _, rfl, rfl⟩
  ⟨hread, ((ofText_outcome {} _).2.2.1 _).mpr
    ⟨_, hread, ⟨⟨_, rfl⟩, rfl⟩, ⟨⟨"a", true⟩, List.mem_cons_self, rfl⟩, rfl⟩⟩

end EventQuery
