import EventQuery.Filter
import EventQuery.Proofs.Precedence
import EventQuery.Proofs.QueryBuilding

/-!
# What is read is well-formed

Every query that a text reads as is well-formed (`parse_wellFormed`), for
any text whatever. The proof follows the grammar: one fact per rule, in
the form `Yields`, each from the facts about its parts.

One shape does not follow from the parts of a rule. A lookup against one
value never starts with a literal in parentheses, because such a text is
read as a list first (`literalList_of_group`): whatever the rule for
values takes there, the rule for lists would have taken before.
-/

namespace EventQuery

open Grammar Reader

/-! ## Fields and literals -/

theorem field_yields : field.Yields Field.WellFormed :=
  .named <| .bind (.any _) fun _ _ =>
    .bind (.token fun _ _ _ => scanIdent_sound) fun _ hname => .pure hname

theorem fieldList_yields : fieldList.Yields FieldsWellFormed :=
  .named (.commaSeparated field_yields)

theorem string_yields : string.Yields fun raw => IsStringToken raw.toList :=
  .token fun _ _ _ => scanString_sound

theorem boolean_yields : boolean.Yields IsBooleanToken :=
  .token fun s raw rest h => by simpa [IsBooleanToken] using scanWord_sound h

theorem literal_yields : literal.Yields Literal.WellFormed := by
  refine .named (.orElse ?_ (.orElse ?_ ?_))
  · exact .bind string_yields fun _ h => .pure h
  · refine .bind (.token fun _ _ _ => scanNumber_sound) fun token h => .pure ?_
    rw [Literal.WellFormed, String.toList_ofList]
    exact h
  · exact .bind boolean_yields fun _ h => .pure h

theorem literalList_yields :
    literalList.Yields fun items => items ≠ [] ∧ ∀ l ∈ items, l.WellFormed :=
  .named <| .bind (.any _) fun _ _ => .bind (.spaced (.commaSeparated literal_yields))
    fun _ hitems => .bind (.any _) fun _ _ => .pure hitems

/-! ## Values -/

theorem CallName.canonical (f : CallName) : f.Canonical := by
  obtain ⟨b, insensitive⟩ := f
  refine ⟨b, by cases b <;> decide, ?_⟩
  cases insensitive
  · exact .inl (by simp [CallName.text])
  · exact .inr rfl

theorem callOf_yields {value : Reader Value} (h : value.Yields Value.WellFormed) :
    (callOf value).Yields fun call => (Value.call call.1 call.2).WellFormed := by
  refine .named <| .bind (.any _) fun name _ => .bind (.any _) fun _ _ =>
    .bind (.spaced (.commaSeparated h)) fun args hargs => .bind (.any _) fun _ _ => .pure ?_
  exact ⟨name.canonical, hargs.1, Value.allWellFormed_iff.mpr hargs.2⟩

theorem valueTerm_yields {value : Reader Value} (h : value.Yields Value.WellFormed) :
    (valueTerm value).Yields fun v => v.WellFormed ∧ v.isArith = false := by
  refine .orElse ?_ (.orElse ?_ (.orElse ?_ (.orElse ?_ ?_)))
  · exact .bind (.any _) fun _ _ => .pure ⟨trivial, rfl⟩
  · exact .bind literal_yields fun _ hl => .pure ⟨hl, rfl⟩
  · exact .bind (callOf_yields h) fun _ hcall => .pure ⟨hcall, rfl⟩
  · exact .bind field_yields fun _ hf => .pure ⟨hf, rfl⟩
  · exact .named <| .bind (.any _) fun _ _ => .bind h.spaced fun _ hv =>
      .bind (.any _) fun _ _ => .pure ⟨hv, rfl⟩

theorem valueOf_yields {value : Reader Value} (h : value.Yields Value.WellFormed) :
    (valueOf value).Yields Value.WellFormed := by
  refine .named <| .bind (valueTerm_yields h) fun first hfirst =>
    .bind (.many (P := fun x => x.2.WellFormed ∧ x.2.isArith = false) ?_) fun row hrow => ?_
  · exact .bind (.any _) fun _ _ => .bind (valueTerm_yields h).spaced fun _ hv => .pure hv
  · exact .pure (Value.ofRow_wellFormed hfirst.1 hfirst.2 hrow)

theorem value_yields : ∀ depth : Nat, (value depth).Yields Value.WellFormed
  | 0 => .fail
  | depth + 1 => .delay (valueOf_yields (value_yields depth))

/-! ## Lookups -/

/-- A term that is a literal is read by the rule for literals. -/
theorem literal_of_valueTerm {value : Reader Value} {s rest : List Char} {l : Literal}
    (h : (valueTerm value).read s = some (.literal l, rest)) :
    literal.read s = some (l, rest) := by
  simp only [valueTerm, read_orElse, Option.or_eq_some_iff, read_bind, read_named,
    Option.bind_eq_some_iff, read_pure, Option.some.injEq, Prod.mk.injEq] at h
  rcases h with ⟨_, _, h, _⟩ | ⟨_, ⟨found, hread, hl, rfl⟩ | ⟨_, ⟨_, _, h, _⟩ | ⟨_, ⟨_, _, h, _⟩ |
    ⟨_, _, _, _, _, _, _, h, _⟩⟩⟩⟩
  · cases h
  · cases hl; exact hread
  · cases h
  · cases h
  · cases h

/-- A term that is a group is read by the rule for groups. -/
theorem group_of_valueTerm {value : Reader Value} {s rest : List Char} {v : Value}
    (h : (valueTerm value).read s = some (.group v, rest)) :
    ∃ s' mid, s = '(' :: s' ∧ value.read (skipGap s') = some (v, mid)
      ∧ skipGap mid = ')' :: rest := by
  simp only [valueTerm, read_orElse, Option.or_eq_some_iff, read_bind, read_named, read_spaced,
    Option.bind_eq_some_iff, read_pure, Option.some.injEq, Prod.mk.injEq] at h
  rcases h with ⟨_, _, h, _⟩ | ⟨_, ⟨_, _, h, _⟩ | ⟨_, ⟨_, _, h, _⟩ | ⟨_, ⟨_, _, h, _⟩ |
    ⟨_, ⟨_, s'⟩, hopen, ⟨v', mid⟩, hv, ⟨_, rest'⟩, hclose, heq, rfl⟩⟩⟩⟩
  · cases h
  · cases h
  · cases h
  · cases h
  · cases heq
    exact ⟨s', mid, read_char_eq_some.mp hopen, hv, read_char_eq_some.mp hclose⟩

/-- The first term of a value, and what is left if it is the only one. -/
theorem first_of_value {depth : Nat} {s rest : List Char} {v : Value}
    (h : (value (depth + 1)).read s = some (v, rest)) :
    ∃ first mid, (valueTerm (value depth)).read s = some (first, mid)
      ∧ v.leftmost = first ∧ (v.isArith = false → v = first ∧ rest = mid) := by
  simp only [value, valueOf, read_delay, read_named, read_bind, Option.bind_eq_some_iff] at h
  obtain ⟨⟨first, mid⟩, hfirst, ⟨row, tail⟩, hrow, hfold⟩ := h
  simp only [read_pure, Option.some.injEq, Prod.mk.injEq] at hfold
  obtain ⟨rfl, rfl⟩ := hfold
  obtain ⟨-, harith⟩ := valueTerm_yields (value_yields depth) hfirst
  refine ⟨first, mid, hfirst, ?_, ?_⟩
  · rw [Value.leftmost_ofRow, Value.leftmost_of_isArith harith]
  · cases row with
    | nil => exact fun _ => ⟨rfl, read_many_nil hrow⟩
    | cons x row =>
        intro hnot
        rw [Value.isArith_ofRow_cons] at hnot
        cases hnot

/-- A value that is one literal is read as that literal: there is no
operator, and nothing but the literal is taken. -/
theorem literal_of_value {depth : Nat} {s rest : List Char} {l : Literal}
    (h : (value depth).read s = some (.literal l, rest)) : literal.read s = some (l, rest) := by
  cases depth with
  | zero => cases h
  | succ depth =>
      obtain ⟨first, mid, hfirst, -, hsingle⟩ := first_of_value h
      obtain ⟨rfl, rfl⟩ := hsingle rfl
      exact literal_of_valueTerm hfirst

/-- A literal in parentheses is a list of one literal. -/
theorem literalList_of_group {depth : Nat} {s rest : List Char} {l : Literal}
    (h : (valueTerm (value depth)).read s = some (.group (.literal l), rest)) :
    literalList.read s = some ([l], rest) := by
  obtain ⟨s', mid, rfl, hv, hclose⟩ := group_of_valueTerm h
  have hl := literal_of_value hv
  -- the parenthesis that closes the group is no comma, so the list ends as well
  have hcomma : (do spaced (char ','); spaced literal : Reader Literal).read mid = none := by
    rw [read_bind, read_spaced, hclose, read_char_eq_none (by simp)]
    rfl
  have hitems : (commaSeparated literal).read (skipGap s') = some ([l], mid) :=
    Takes.read_many1 hl (.done hcomma)
  simp [literalList, hitems, hclose]

theorem lookupTarget_yields (depth : Nat) :
    (lookupTarget (value depth)).Yields LookupTarget.WellFormed := by
  intro s target rest h
  rw [lookupTarget, read_orElse, Option.or_eq_some_iff] at h
  rcases h with h | ⟨hlist, h⟩
  · exact Yields.bind literalList_yields (fun items hitems => .pure hitems) h
  · simp only [read_bind, Option.bind_eq_some_iff, read_pure, Option.some.injEq,
      Prod.mk.injEq] at h hlist
    obtain ⟨⟨v, mid⟩, hv, rfl, rfl⟩ := h
    refine ⟨value_yields depth hv, fun l hleft => ?_⟩
    cases depth with
    | zero => cases hv
    | succ depth =>
        obtain ⟨first, mid', hfirst, hleft', -⟩ := first_of_value hv
        rw [hleft] at hleft'
        subst hleft'
        rw [literalList_of_group hfirst] at hlist
        cases hlist

theorem lookup_yields (depth : Nat) : (lookup (value depth)).Yields fun c =>
    c.WellFormed ∧ c.isLogical = false :=
  .named <| .bind field_yields fun _ hf => .bind (.any _) fun _ _ => .bind (.any _) fun _ _ =>
    .bind (lookupTarget_yields depth).spaced fun _ ht => .pure ⟨⟨hf, ht⟩, rfl⟩

/-! ## Conditions -/

theorem comparison_yields (depth : Nat) : (comparison (value depth)).Yields fun c =>
    c.WellFormed ∧ c.isLogical = false :=
  .named <| .bind (value_yields depth) fun _ hl => .bind (.any _) fun _ _ =>
    .bind (value_yields depth).spaced fun _ hr => .pure ⟨⟨hl, hr⟩, rfl⟩

theorem conditionTerm_yields (depth : Nat) {condition : Reader Condition}
    (h : condition.Yields Condition.WellFormed) :
    (conditionTerm (value depth) condition).Yields fun c =>
      c.WellFormed ∧ c.isLogical = false := by
  refine .orElse (comparison_yields depth) (.orElse (lookup_yields depth)
    (.orElse ?_ (.orElse ?_ ?_)))
  · exact .bind boolean_yields fun _ hraw => .pure ⟨hraw, rfl⟩
  · exact .bind (callOf_yields (value_yields depth)) fun _ hcall => .pure ⟨hcall, rfl⟩
  · exact .named <| .bind (.any _) fun _ _ => .bind h.spaced fun _ hc =>
      .bind (.any _) fun _ _ => .pure ⟨hc, rfl⟩

theorem negatedTerm_yields {term : Reader Condition}
    (h : term.Yields fun c => c.WellFormed ∧ c.isLogical = false) :
    (negatedTerm term).Yields fun c => c.WellFormed ∧ c.isLogical = false :=
  .bind (.any _) fun nots _ => .bind h.spaced fun _ hc =>
    .pure (Condition.negateTimes_wellFormed nots.length hc.1 hc.2)

theorem conditionOf_yields (depth : Nat) {condition : Reader Condition}
    (h : condition.Yields Condition.WellFormed) :
    (conditionOf (value depth) condition).Yields Condition.WellFormed := by
  have hterm := negatedTerm_yields (conditionTerm_yields depth h)
  refine .named <| .bind hterm fun first hfirst =>
    .bind (.many (P := fun x => x.2.WellFormed ∧ x.2.isLogical = false) ?_) fun row hrow => ?_
  · exact .bind (.any _) fun _ _ => .bind hterm.spaced fun _ hc => .pure hc
  · exact .pure (Condition.ofRow_wellFormed hfirst.1 hrow)

theorem condition_yields : ∀ depth : Nat, (condition depth).Yields Condition.WellFormed
  | 0 => .fail
  | depth + 1 => .delay (conditionOf_yields (depth + 1) (condition_yields depth))

/-! ## Queries as they are read -/

/-- A query whose counts and span are tokens of their rules. -/
def SourceQuery.WellFormed (q : SourceQuery) : Prop :=
  QueryOf.WellFormed (fun t : SourceToken => IsNumberToken t.text)
    (fun t : SourceToken => IsIntervalToken t.text) q

theorem sourceToken_yields {symbol : Symbol} {scan : List Char → Option (List Char × List Char)}
    {P : List Char → Prop} (h : ∀ s token rest, scan s = some (token, rest) → P token) :
    (sourceToken symbol scan).Yields fun t => P t.text :=
  .bind (.located (.token h)) fun _ ht => .pure ht

theorem category_yields : category.Yields Category.WellFormed := by
  refine .named (.orElse ?_ (.orElse ?_ ?_))
  · exact .bind (.any _) fun _ _ => .pure trivial
  · exact .bind string_yields fun _ hraw => .pure hraw
  · exact .bind (.token fun _ _ _ => scanIdent_sound) fun _ hname => .pure hname

section Queries

variable {condition : Reader Condition} (h : condition.Yields Condition.WellFormed)

include h

theorem simpleQuery_yields : (simpleQuery condition).Yields SimpleQuery.WellFormed :=
  .named <| .bind category_yields fun _ hcategory =>
    .bind (.optional (.bind (.any _) fun _ _ => h.spaced)) fun _ hcondition =>
      .pure ⟨hcategory, hcondition⟩

theorem bracketed_yields : (bracketed condition).Yields SimpleQuery.WellFormed :=
  .bind (.any _) fun _ _ => .bind (simpleQuery_yields h).spaced fun _ hq =>
    .bind (.any _) fun _ _ => .pure hq

omit h in
theorem sequenceBy_yields : sequenceBy.Yields FieldsWellFormed :=
  .named <| .bind (.any _) fun _ _ => fieldList_yields.spaced

omit h in
/-- The join keys of an optional `by` clause. -/
theorem keys_wellFormed {keys : Option (List Field)}
    (hkeys : ∀ fields, keys = some fields → FieldsWellFormed fields) :
    ∀ f ∈ keys.getD [], f.WellFormed := by
  cases keys with
  | none => simp
  | some fields => exact (hkeys fields rfl).2

omit h in
theorem maxspan_yields : maxspan.Yields fun t => IsIntervalToken t.text :=
  .named <| .bind (.any _) fun _ _ => .bind (.any _) fun _ _ => .bind (.any _) fun _ _ =>
    (sourceToken_yields fun _ _ _ => scanInterval_sound).spaced

theorem sequenceStep_yields : (sequenceStep condition).Yields SequenceStep.WellFormed :=
  .named <| .bind (bracketed_yields h) fun _ hq =>
    .bind (.optional sequenceBy_yields.spaced) fun _ hkeys => .pure ⟨hq, keys_wellFormed hkeys⟩

theorem sequenceQuery_yields : (sequenceQuery condition).Yields
    (SequenceQuery.WellFormed fun t : SourceToken => IsIntervalToken t.text) :=
  .named <| .bind (.any _) fun _ _ =>
    .bind (.optional sequenceBy_yields.spaced) fun _ hkeys =>
    .bind (.optional maxspan_yields.spaced) fun _ hspan =>
    .bind (.many1 (sequenceStep_yields h).spaced (sequenceStep_yields h).spaced) fun _ hsteps =>
      .pure ⟨keys_wellFormed hkeys, hspan, hsteps.1, hsteps.2⟩

theorem sampleQuery_yields : (sampleQuery condition).Yields SampleQuery.WellFormed :=
  have hstep : (sampleStep condition).Yields SimpleQuery.WellFormed := .named (bracketed_yields h)
  .named <| .bind (.any _) fun _ _ => .bind (.any _) fun _ _ =>
    .bind fieldList_yields.spaced fun _ hkeys =>
    .bind (.many1 hstep.spaced hstep.spaced) fun _ hsteps => .pure ⟨hkeys, hsteps.1, hsteps.2⟩

theorem body_yields : (body condition).Yields
    (Body.WellFormed fun t : SourceToken => IsIntervalToken t.text) := by
  refine .orElse ?_ (.orElse ?_ ?_)
  · exact .bind (sequenceQuery_yields h) fun _ hq => .pure hq
  · exact .bind (sampleQuery_yields h) fun _ hq => .pure hq
  · exact .bind (simpleQuery_yields h) fun _ hq => .pure hq

theorem pipe_yields : (pipe condition).Yields
    (Pipe.WellFormed fun t : SourceToken => IsNumberToken t.text) := by
  have hcount : count.Yields fun t => IsNumberToken t.text :=
    sourceToken_yields fun _ _ _ => scanNumber_sound
  refine .named <| .bind (.any _) fun _ _ => .spaced (.orElse ?_ (.orElse ?_ (.orElse ?_
    (.orElse ?_ (.orElse ?_ ?_)))))
  · exact .named <| .bind (.any _) fun _ _ => .bind hcount.spaced fun _ ht => .pure ht
  · exact .named <| .bind (.any _) fun _ _ => .bind hcount.spaced fun _ ht => .pure ht
  · exact .named <| .bind (.any _) fun _ _ => .pure trivial
  · exact .named <| .bind (.any _) fun _ _ => .bind fieldList_yields.spaced fun _ hf => .pure hf
  · exact .named <| .bind (.any _) fun _ _ => .bind h.spaced fun _ hc => .pure hc
  · exact .named <| .bind (.any _) fun _ _ => .bind fieldList_yields.spaced fun _ hf => .pure hf

theorem queryOf_yields : (queryOf condition).Yields SourceQuery.WellFormed :=
  .named <| .bind (body_yields h).spaced fun _ hbody =>
    .bind (pipe_yields h).spaced.many fun _ hpipes => .bind (.any _) fun _ _ =>
      .pure ⟨hbody, hpipes⟩

end Queries

theorem query_yields (text : List Char) : (query text).Yields SourceQuery.WellFormed :=
  queryOf_yields (condition_yields _)

/-! ## Finished queries -/

theorem quantity_lt_limit {token : List Char} {n : Nat} (h : Quantity.ofToken? token = some n) :
    n < Quantity.limit := by
  rw [Quantity.ofToken?] at h
  split at h
  · next hrun => exact Option.some.inj h ▸ hrun.2
  · cases h

theorem interval_millis {token : List Char} {i : Interval}
    (h : Interval.ofToken? token = some i) : i.millis?.isSome := by
  simp only [Interval.ofToken?, bind, Option.bind_eq_some_iff, pure, Option.some.injEq] at h
  obtain ⟨value, -, unit, -, total, htotal, rfl⟩ := h
  simp [htotal]

theorem bodyOfSource_wellFormed {b : Body SourceToken} {b' : Body Interval}
    (h : b.WellFormed fun t => IsIntervalToken t.text) (hfinish : bodyOfSource b = some b') :
    b'.WellFormed fun i => i.millis?.isSome := by
  cases b with
  | simple q => cases hfinish; exact h
  | sample q => cases hfinish; exact h
  | sequence q =>
      obtain ⟨keys, span, steps⟩ := q
      cases span with
      | none => cases hfinish; exact ⟨h.keys, fun _ hi => (by cases hi), h.nonempty, h.steps⟩
      | some t =>
          obtain ⟨i, hi, rfl⟩ := Option.map_eq_some_iff.mp hfinish
          refine ⟨h.keys, fun j hj => ?_, h.nonempty, h.steps⟩
          obtain rfl := Option.some.inj hj
          exact interval_millis hi

theorem pipeOfSource_wellFormed {p : Pipe SourceToken} {p' : Pipe Nat}
    (h : p.WellFormed fun t => IsNumberToken t.text) (hfinish : pipeOfSource p = some p') :
    p'.WellFormed (· < Quantity.limit) := by
  cases p with
  | head t =>
      obtain ⟨n, hn, rfl⟩ := Option.map_eq_some_iff.mp hfinish
      exact quantity_lt_limit hn
  | tail t =>
      obtain ⟨n, hn, rfl⟩ := Option.map_eq_some_iff.mp hfinish
      exact quantity_lt_limit hn
  | _ => cases hfinish; exact h

theorem pipesOfSource_wellFormed : ∀ {ps : List (Pipe SourceToken)} {ps' : List (Pipe Nat)},
    (∀ p ∈ ps, p.WellFormed fun t => IsNumberToken t.text) → ps.mapM pipeOfSource = some ps' →
      ∀ p ∈ ps', p.WellFormed (· < Quantity.limit)
  | [], ps', _, hfinish => by
      obtain rfl : ps' = [] := by simpa using hfinish.symm
      simp
  | p :: ps, ps', h, hfinish => by
      simp only [List.mapM_cons, bind, Option.bind_eq_some_iff, pure, Option.some.injEq] at hfinish
      obtain ⟨p', hp, rest, hrest, rfl⟩ := hfinish
      obtain ⟨hhead, htail⟩ := List.forall_mem_cons.mp h
      exact List.forall_mem_cons.mpr
        ⟨pipeOfSource_wellFormed hhead hp, pipesOfSource_wellFormed htail hrest⟩

theorem finish_wellFormed {source : SourceQuery} {q : Query} (h : SourceQuery.WellFormed source)
    (hfinish : source.finish? = some q) : q.WellFormed := by
  simp only [SourceQuery.finish?, bind, Option.bind_eq_some_iff, pure, Option.some.injEq] at hfinish
  obtain ⟨body, hbody, pipes, hpipes, rfl⟩ := hfinish
  exact ⟨bodyOfSource_wellFormed h.body hbody, pipesOfSource_wellFormed h.pipes hpipes⟩

theorem ofText_wellFormed {text : String} {q : Query} (h : Query.ofText text = .ok q) :
    q.WellFormed := by
  obtain ⟨source, rest, hread, hfinish⟩ := Query.ofChars_eq_ok_iff.mp h
  exact finish_wellFormed (query_yields _ hread) hfinish

theorem ofText_of_parse {text : String} {q : Query} (h : parse text = .ok q) :
    Query.ofText text = .ok q := by
  unfold parse at h
  split at h
  · next hread => cases h; exact hread
  · cases h

theorem byClause_wellFormed {s rest : List Char} {nodes : List ParseNode}
    (h : Rules.sequenceBy.read s = some (nodes, rest)) :
    ∃ n fields, nodes = [n] ∧ Builder.byClause n = .ok fields ∧ FieldsWellFormed fields := by
  obtain ⟨fields, ⟨n, hn, -, hbuild⟩, hfields⟩ :=
    sequenceBy_builds.exists_of_yields sequenceBy_yields h
  exact ⟨n, fields, hn, hbuild, hfields⟩

/-! ## The headline theorem -/

/-- **Soundness of reading.** Whatever the text, the query read from it is
well-formed. A `by` clause that is written lists at least one field, and so
does what is built from its node; an empty list of keys in the tree of a
sequence stands for no clause. -/
theorem parse_wellFormed {text : String} {q : Query} (h : parse text = .ok q) :
    q.WellFormed ∧ sequenceBy.Yields FieldsWellFormed ∧
      ∀ s nodes rest, Rules.sequenceBy.read s = some (nodes, rest) →
        ∃ n fields, nodes = [n] ∧ Builder.byClause n = .ok fields ∧ FieldsWellFormed fields :=
  ⟨ofText_wellFormed (ofText_of_parse h), sequenceBy_yields, fun _ _ _ => byClause_wellFormed⟩

theorem parse_wellFormed_sequence :
    ∃ q, parse "sequence by a with maxspan=2m [p where not length(b) and c : (d)] | head 5" = .ok q
      ∧ q.WellFormed ∧ sequenceBy.Yields FieldsWellFormed
      ∧ ∀ s nodes rest, Rules.sequenceBy.read s = some (nodes, rest) →
        ∃ n fields, nodes = [n] ∧ Builder.byClause n = .ok fields ∧ FieldsWellFormed fields :=
  have h : parse "sequence by a with maxspan=2m [p where not length(b) and c : (d)] | head 5"
      = .ok ⟨.sequence ⟨[⟨"a", false⟩], some ⟨2, .minutes⟩,
          [⟨⟨.name "p", some (.logical .and (.notCall ⟨.length, false⟩ [.field ⟨"b", false⟩])
            (.lookup ⟨"c", false⟩ false .colon (.value (.group (.field ⟨"d", false⟩)))))⟩, []⟩]⟩,
          [.head 5]⟩ := parse_of_finish rfl rfl
  ⟨_, h, parse_wellFormed h⟩

end EventQuery
