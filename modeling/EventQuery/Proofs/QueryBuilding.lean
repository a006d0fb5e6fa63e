import EventQuery.Filter
import EventQuery.Proofs.TreeReading

/-!
# Matching and building

The rules of the grammar that hold counts and time spans: sequences, pipes
and whole queries. Their nodes are built to the end whatever the tokens are,
and the faults of the tokens are reported on the way (`Reports`).

For whole texts it follows that reading a text is what the direct readers
do, and that no `Mismatch` is ever reported (`Query.ofChars_eq`).
-/

namespace EventQuery

namespace Grammar

open Reader Matcher

variable {α β : Type}

/-! ## Reports -/

/-- A part is built, and faults are reported on the way. -/
structure Reports (r : Builder.Reporting α) (a : α) (faults : List QuantityFault) : Prop where
  run (before : List QuantityFault) : r.run.run before = (.ok a, before ++ faults)

namespace Reports

variable {r : Builder.Reporting α} {k : α → Builder.Reporting β} {a : α} {b : β}
  {faults faults' : List QuantityFault}

theorem pure (a : α) : Reports (pure a) a [] := ⟨fun before => by rw [List.append_nil]; rfl⟩

theorem bind (h : Reports r a faults) (hk : Reports (k a) b faults') :
    Reports (r >>= k) b (faults ++ faults') := by
  refine ⟨fun before => ?_⟩
  have hrun : (r >>= k).run.run before = (k a).run.run (before ++ faults) := by
    simp only [ExceptT.run_bind, StateT.run_bind, h.run]
    rfl
  rw [hrun, hk.run, List.append_assoc]

theorem bind_pure (h : Reports r a faults) (hk : Reports (k a) b []) :
    Reports (r >>= k) b faults := by
  rw [← List.append_nil faults]
  exact h.bind hk

theorem map {f : α → β} (h : Reports r a faults) :
    Reports (r >>= fun a => Pure.pure (f a)) (f a) faults :=
  h.bind_pure (.pure (f a))

/-- What is built without faults. -/
theorem built {x : Builder.Built α} (h : x = .ok a) :
    Reports (liftM x : Builder.Reporting α) a [] := by
  subst h
  exact .pure a

theorem report (f : QuantityFault) : Reports (Builder.report f) () [f] := ⟨fun _ => rfl⟩

end Reports

/-! ## Quantities -/

/-- The count that a token is built to. -/
def recoveredCount (t : SourceToken) : Nat := (Quantity.ofToken? t.text).getD 0

/-- The interval that a token is built to. -/
def recoveredSpan (t : SourceToken) : Interval :=
  ⟨(Quantity.ofToken? (t.text.takeWhile Char.isDigit)).getD 0,
    (IntervalUnit.ofSuffix? (String.ofList (t.text.dropWhile Char.isDigit))).getD .days⟩

theorem count_reports (n : ParseNode) : Reports (Builder.count n) (recoveredCount n.token)
    (if (Quantity.ofToken? n.token.text).isSome then [] else [.count n.token]) := by
  rw [Builder.count, recoveredCount, ParseNode.token]
  cases Quantity.ofToken? n.text.toList with
  | none => exact (Reports.report _).map
  | some k => exact .pure k

theorem interval_reports {n : ParseNode} (h : IsIntervalToken n.token.text) :
    Reports (Builder.interval n) (recoveredSpan n.token)
      (if (Interval.ofToken? n.token.text).isSome then [] else [.span n.token]) := by
  obtain ⟨digits, unit, htext, hrun⟩ := h
  change n.text.toList = digits ++ unit.suffix.toList at htext
  have hdigits := (isRun_iff.mp hrun).2
  have hhalts : Halts Char.isDigit unit.suffix.toList := by
    simpa using halts_isDigit_suffix unit []
  have hunit : IntervalUnit.ofSuffix? unit.suffix = some unit := by cases unit <;> rfl
  simp only [Builder.interval, recoveredSpan, Interval.ofToken?, ParseNode.token, htext,
    takeWhile_run hdigits hhalts, dropWhile_run hdigits hhalts, String.ofList_toList, hunit]
  cases Quantity.ofToken? digits with
  | none => exact (Reports.report _).map
  | some k =>
      cases hmillis : Interval.millis? ⟨k, unit⟩ with
      | none => simpa [hmillis] using (Reports.report _).map
      | some total => simpa [hmillis] using Reports.pure _

theorem sourceToken_builds {x : Symbol} {scan : List Char → Option (List Char × List Char)}
    {P : List Char → Prop} (hP : ∀ {s token rest}, scan s = some (token, rest) → P token) :
    Matches (leaf x fun s => (scan s).map fun (token, rest) => (String.ofList token, rest))
      (sourceToken x scan) (One fun n t => n.symbol = x ∧ n.token = t ∧ P t.text) := by
  refine ⟨fun s => ?_⟩
  have hread : (sourceToken x scan).read s =
      (scan s).map fun found => (⟨s.length, found.1⟩, found.2) := by
    rw [sourceToken, read_bind, read_located, read_token]
    cases scan s <;> rfl
  cases hs : scan s with
  | none => exact .fails (by rw [read_leaf, hs]; rfl) (by rw [hread, hs]; rfl)
  | some found =>
      refine .takes (by rw [read_leaf, hs]; rfl) (by rw [hread, hs]; rfl) ⟨_, rfl, rfl, ?_, hP hs⟩
      rw [ParseNode.token, String.toList_ofList]

/-! ## Sequences -/

def recoveredSequence (q : SequenceQuery SourceToken) : SequenceQuery Interval :=
  ⟨q.keys, q.maxspan.map recoveredSpan, q.steps⟩

theorem maxspan_builds : Matches Rules.maxspan maxspan (One fun n t => n.symbol = .maxspan ∧
    ∃ i, Builder.argument n "interval" = .ok i ∧ i.token = t ∧ IsIntervalToken t.text) := by
  refine .branch ((keyword_builds .kwWith "with" rfl).row_cons ?_)
  rintro _ _ ⟨k, rfl, hk⟩
  refine (keyword_builds .kwMaxspan "maxspan" rfl).spaced.row_cons ?_
  rintro _ _ ⟨k', rfl, hk'⟩
  refine (Matches.mark '=').spaced.row_cons ?_
  rintro _ _ rfl
  refine (sourceToken_builds scanInterval_sound).spaced.row_last ?_
  rintro _ t ⟨i, rfl, hi, htoken, hshape⟩ left text
  have hi : i.symbol.isKeyword = false := by rw [hi]; rfl
  exact ⟨i, by simp [Builder.argument, ParseNode.significant, hk, hk', hi], htoken, hshape⟩

theorem keys_report {nodes : List ParseNode} {keys : Option (List Field)}
    (h : Perhaps (Builds .sequenceBy Builder.byClause) nodes keys) :
    Reports (nodes.foldlM Builder.sequencePart ⟨[], none, []⟩) ⟨keys.getD [], none, []⟩ [] := by
  cases h with
  | none => exact .pure _
  | some hn =>
      obtain ⟨n, rfl, hn, hkeys⟩ := hn
      rw [List.foldlM_cons, Builder.sequencePart, hn]
      exact (Reports.built hkeys).map.bind (.pure _)

theorem span_report {nodes : List ParseNode} {span : Option SourceToken}
    (h : Perhaps (One fun n t => n.symbol = .maxspan ∧
      ∃ i, Builder.argument n "interval" = .ok i ∧ i.token = t ∧ IsIntervalToken t.text) nodes span)
    (keys : List Field) (steps : List SequenceStep) :
    Reports (nodes.foldlM Builder.sequencePart ⟨keys, none, []⟩)
      ⟨keys, span.map recoveredSpan, []⟩ (spanFaults (.sequence ⟨keys, span, steps⟩)) := by
  cases h with
  | none => exact .pure _
  | some hn =>
      obtain ⟨n, rfl, hn, i, harg, rfl, hshape⟩ := hn
      rw [List.foldlM_cons, Builder.sequencePart, hn]
      exact Reports.map ((Reports.built harg).bind (interval_reports hshape).map)

theorem steps_report {nodes : List ParseNode} {steps : List SequenceStep}
    (h : Each (Builds .sequenceStep Builder.sequenceStep) nodes steps) (keys : List Field)
    (span : Option Interval) (before : List SequenceStep) :
    Reports (nodes.foldlM Builder.sequencePart ⟨keys, span, before⟩)
      ⟨keys, span, before ++ steps⟩ [] := by
  induction h generalizing before with
  | nil =>
      rw [List.append_nil]
      exact .pure _
  | @cons _ _ step steps hn _ ih =>
      obtain ⟨n, rfl, hn, hstep⟩ := hn
      rw [List.singleton_append, List.foldlM_cons, Builder.sequencePart, hn,
        List.append_cons before step steps]
      exact (Reports.built hstep).map.bind (ih _)

theorem sequenceQuery_builds {m : Matcher} {p : Reader Condition}
    (h : Matches m p (Builds .condition Builder.condition)) :
    Matches (Rules.sequenceQuery m) (sequenceQuery p) (One fun n q => n.symbol = .sequenceQuery ∧
      Reports (Builder.sequenceQuery n) (recoveredSequence q) (spanFaults (.sequence q))) := by
  refine .branch ((keyword_builds .kwSequence "sequence" rfl).row_cons ?_)
  rintro _ _ ⟨k, rfl, hk⟩
  refine sequenceBy_builds.spaced.maybe.row_cons fun keyNodes keys hkeys => ?_
  refine maxspan_builds.spaced.maybe.row_cons fun spanNodes span hspan => ?_
  have hstep := (sequenceStep_builds h).spaced
  refine (hstep.repeated1 hstep).row_cons fun stepNodes steps hsteps => .row_nil fun left text => ?_
  have hparts : ParseNode.significant
      ⟨.sequenceQuery, left, text, [k] ++ (keyNodes ++ (spanNodes ++ (stepNodes ++ [])))⟩ =
        keyNodes ++ (spanNodes ++ stepNodes) := by
    simp [ParseNode.significant, hk, hkeys.filter_eq rfl, hspan.filter_eq rfl, hsteps.filter_eq rfl]
  rw [Builder.sequenceQuery, hparts, List.foldlM_append]
  have hrest : Reports
      ((spanNodes ++ stepNodes).foldlM Builder.sequencePart ⟨keys.getD [], none, []⟩)
      (recoveredSequence ⟨keys.getD [], span, steps⟩)
      (spanFaults (.sequence ⟨keys.getD [], span, steps⟩)) := by
    rw [List.foldlM_append]
    exact (span_report hspan _ _).bind_pure (steps_report hsteps _ _ [])
  exact (keys_report hkeys).bind hrest

def recoveredBody : Body SourceToken → Body Interval
  | .simple q => .simple q
  | .sequence q => .sequence (recoveredSequence q)
  | .sample q => .sample q

theorem body_builds {m : Matcher} {p : Reader Condition}
    (h : Matches m p (Builds .condition Builder.condition)) :
    Matches (Rules.body m) (body p) (One fun n b => ∀ q, Reports (Builder.queryPart q n)
      { q with body := some (recoveredBody b) } (spanFaults b)) := by
  refine .orElse ((sequenceQuery_builds h).map_one ?_) <|
    .orElse ((sampleQuery_builds h).map_one ?_) ((simpleQuery_builds h).map_one ?_)
  · rintro n s ⟨hn, hs⟩ q
    rw [Builder.queryPart, hn]
    exact hs.map
  · rintro n s ⟨hn, hs⟩ q
    rw [Builder.queryPart, hn]
    exact (Reports.built hs).map
  · rintro n s ⟨hn, hs⟩ q
    rw [Builder.queryPart, hn]
    exact (Reports.built hs).map

/-! ## Pipes -/

def recoveredPipe : Pipe SourceToken → Pipe Nat
  | .head t => .head (recoveredCount t)
  | .tail t => .tail (recoveredCount t)
  | .count => .count
  | .unique fields => .unique fields
  | .filter c => .filter c
  | .sort fields => .sort fields

/-- A node of a stage that is built to a pipe. -/
def StageReports (n : ParseNode) (p : Pipe SourceToken) : Prop :=
  Reports (Builder.stage n) (recoveredPipe p) (countFaults p)

/-- A stage with one argument. -/
theorem stage_builds {m : Matcher} {p : Reader α} {R : ParseNode → α → Prop}
    {f : α → Pipe SourceToken} {x k y : Symbol} {w : String}
    (h : Matches m p (One fun n a => n.symbol = y ∧ R n a))
    (hk : k.isKeyword = true) (hy : y.isKeyword = false)
    (hstage : ∀ n a (parent : ParseNode), R n a → parent.symbol = x →
      (∀ what, Builder.argument parent what = .ok n) → StageReports parent (f a)) :
    Matches (branch x (row [Rules.keyword k w, spaced m]))
      (named x do
        keyword k w
        return f (← spaced p)) (One StageReports) := by
  refine (Matches.branch ((keyword_builds k w hk).row_cons ?_)).imp_one fun _ _ => And.right
  rintro _ _ ⟨n, rfl, hn⟩
  refine h.spaced.row_cons ?_
  rintro _ a ⟨n', rfl, rfl, ha⟩
  exact .row_nil fun left text => hstage n' a _ ha rfl fun what => argument_eq hn hy

theorem count_builds : Matches Rules.number count
    (One fun n t => n.symbol = .number ∧ n.token = t) :=
  (sourceToken_builds (P := fun _ => True) fun _ => trivial).imp_one fun _ _ h => ⟨h.1, h.2.1⟩

theorem headPipe_builds : Matches Rules.headPipe headPipe (One StageReports) := by
  refine stage_builds count_builds rfl rfl ?_
  rintro n _ parent rfl hx harg
  rw [StageReports, Builder.stage, hx]
  exact (Reports.built (harg _)).bind (count_reports n).map

theorem tailPipe_builds : Matches Rules.tailPipe tailPipe (One StageReports) := by
  refine stage_builds count_builds rfl rfl ?_
  rintro n _ parent rfl hx harg
  rw [StageReports, Builder.stage, hx]
  exact (Reports.built (harg _)).bind (count_reports n).map

theorem countPipe_builds : Matches Rules.countPipe countPipe (One StageReports) := by
  refine (Matches.branch ((keyword_builds .kwCount "count" rfl).map ?_)).imp_one
    fun _ _ => And.right
  intro _ _ _ _ _
  exact .pure _

theorem uniquePipe_builds : Matches Rules.uniquePipe uniquePipe (One StageReports) := by
  refine stage_builds fieldList_builds rfl rfl fun n fields parent hfields hx harg => ?_
  rw [StageReports, Builder.stage, hx]
  exact (Reports.built (harg _)).bind (Reports.built hfields).map

theorem sortPipe_builds : Matches Rules.sortPipe sortPipe (One StageReports) := by
  refine stage_builds fieldList_builds rfl rfl fun n fields parent hfields hx harg => ?_
  rw [StageReports, Builder.stage, hx]
  exact (Reports.built (harg _)).bind (Reports.built hfields).map

section Pipes

variable {m : Matcher} {p : Reader Condition}
  (h : Matches m p (Builds .condition Builder.condition))

include h

theorem filterPipe_builds : Matches (Rules.filterPipe m) (filterPipe p) (One StageReports) := by
  refine stage_builds h rfl rfl fun n c parent hc hx harg => ?_
  rw [StageReports, Builder.stage, hx]
  exact (Reports.built (harg _)).bind (Reports.built hc).map

theorem pipe_builds : Matches (Rules.pipe m) (pipe p) (One fun n s => n.symbol = .pipe ∧
    Reports (Builder.pipe n) (recoveredPipe s) (countFaults s)) := by
  have hstage : Matches (Rules.headPipe <|> Rules.tailPipe <|> Rules.countPipe <|>
        Rules.uniquePipe <|> Rules.filterPipe m <|> Rules.sortPipe)
      (headPipe <|> tailPipe <|> countPipe <|> uniquePipe <|> filterPipe p <|> sortPipe)
      (One StageReports) :=
    headPipe_builds.orElse <| tailPipe_builds.orElse <| countPipe_builds.orElse <|
      uniquePipe_builds.orElse <| (filterPipe_builds h).orElse sortPipe_builds
  refine .branch ((Matches.mark '|').row_cons ?_)
  rintro _ _ rfl
  refine hstage.spaced.row_last ?_
  rintro _ s ⟨n, rfl, hs⟩ left text
  exact hs

end Pipes

theorem pipes_report {nodes : List ParseNode} {pipes : List (Pipe SourceToken)}
    (h : Each (One fun n s => n.symbol = .pipe ∧
      Reports (Builder.pipe n) (recoveredPipe s) (countFaults s)) nodes pipes)
    (body : Option (Body Interval)) (before : List (Pipe Nat)) :
    Reports (nodes.foldlM Builder.queryPart ⟨body, before⟩)
      ⟨body, before ++ pipes.map recoveredPipe⟩ (pipes.flatMap countFaults) := by
  induction h generalizing before with
  | nil =>
      rw [List.map_nil, List.append_nil]
      exact .pure _
  | @cons _ _ p pipes hn _ ih =>
      obtain ⟨n, rfl, hn, hp⟩ := hn
      rw [List.singleton_append, List.foldlM_cons, Builder.queryPart, hn, List.map_cons,
        List.append_cons before, List.flatMap_cons]
      exact hp.map.bind (ih _)

/-! ## Whole texts -/

def SourceQuery.recovered (q : SourceQuery) : Query :=
  ⟨recoveredBody q.body, q.pipes.map recoveredPipe⟩

theorem endOfInput_builds : Matches Rules.endOfInput endOfInput
    (One fun n _ => n.symbol = .endOfInput) := by
  refine Matches.imp_one (.leaf (R := fun _ _ => True) fun s => ?_) fun _ _ => And.left
  cases s with
  | nil => exact .inr ⟨_, _, _, rfl, rfl, trivial⟩
  | cons c s => exact .inl ⟨rfl, rfl⟩

theorem queryOf_builds {m : Matcher} {p : Reader Condition}
    (h : Matches m p (Builds .condition Builder.condition)) : Matches (Rules.queryOf m) (queryOf p)
    (One fun n (q : SourceQuery) => n.symbol = .query ∧
      Reports (Builder.query n) q.recovered q.faults) := by
  refine .branch ((body_builds h).spaced.row_cons ?_)
  rintro _ b ⟨n, rfl, hb⟩
  refine (pipe_builds h).spaced.repeated.row_cons fun nodes pipes hpipes => ?_
  refine endOfInput_builds.spaced.row_cons ?_
  rintro _ _ ⟨e, rfl, he⟩
  refine .row_nil fun left text => ?_
  have hend : ∀ q, Reports ([e].foldlM Builder.queryPart q) q [] := by
    intro q
    rw [List.foldlM_cons, Builder.queryPart, he]
    exact .pure q
  have hparts : Reports ((nodes ++ [e]).foldlM Builder.queryPart ⟨some (recoveredBody b), []⟩)
      ⟨some (recoveredBody b), pipes.map recoveredPipe⟩ (pipes.flatMap countFaults) := by
    rw [List.foldlM_append]
    exact (pipes_report hpipes _ []).bind_pure (hend _)
  have hfold : Reports ((n :: (nodes ++ [e])).foldlM Builder.queryPart ⟨none, []⟩)
      ⟨some (recoveredBody b), pipes.map recoveredPipe⟩
      (spanFaults b ++ pipes.flatMap countFaults) := by
    rw [List.foldlM_cons]
    exact (hb ⟨none, []⟩).bind hparts
  rw [Builder.query, List.singleton_append, List.append_nil, SourceQuery.faults]
  exact hfold.bind_pure (.pure _)

theorem query_builds (text : List Char) : Matches (Rules.query text) (query text)
    (One fun n (q : SourceQuery) => n.symbol = .query ∧
      Reports (Builder.query n) q.recovered q.faults) :=
  queryOf_builds (condition_builds (text.length + 1))

theorem exists_tree_of_read {text rest : List Char} {source : SourceQuery}
    (h : (query text).read text = some (source, rest)) :
    ∃ tree, (Rules.query text).read text = some ([tree], rest) ∧
      Reports (Builder.query tree) source.recovered source.faults := by
  have hbuilds := query_builds text
  generalize Rules.query text = m at hbuilds ⊢
  generalize query text = p at hbuilds h
  cases hbuilds.on text with
  | fails hm hp => cases hp.symm.trans h
  | takes hm hp hn =>
      cases hp.symm.trans h
      obtain ⟨n, rfl, -, hn⟩ := hn
      exact ⟨n, hm, hn⟩

/-! ## Finished queries -/

theorem recoveredSpan_eq {t : SourceToken} {i : Interval} (h : Interval.ofToken? t.text = some i) :
    recoveredSpan t = i := by
  simp only [Interval.ofToken?, bind, pure, Option.bind_eq_some_iff, Option.some.injEq] at h
  obtain ⟨k, hk, unit, hunit, -, -, rfl⟩ := h
  rw [recoveredSpan, hk, hunit]
  rfl

theorem bodyOfSource_eq (b : Body SourceToken) :
    bodyOfSource b = if spanFaults b = [] then some (recoveredBody b) else none := by
  cases b with
  | simple q => rfl
  | sample q => rfl
  | sequence q =>
      obtain ⟨keys, span, steps⟩ := q
      cases span with
      | none => rfl
      | some t =>
          cases hi : Interval.ofToken? t.text with
          | none => simp [bodyOfSource, spanFaults, hi]
          | some i =>
              simp [bodyOfSource, spanFaults, hi, recoveredBody, recoveredSequence,
                recoveredSpan_eq hi]

theorem pipeOfSource_eq (p : Pipe SourceToken) :
    pipeOfSource p = if countFaults p = [] then some (recoveredPipe p) else none := by
  cases p with
  | head t | tail t =>
      cases hk : Quantity.ofToken? t.text <;>
        simp [pipeOfSource, countFaults, recoveredPipe, recoveredCount, hk]
  | count | unique fields | filter c | sort fields => rfl

theorem pipesOfSource_eq (ps : List (Pipe SourceToken)) : ps.mapM pipeOfSource =
    if ps.flatMap countFaults = [] then some (ps.map recoveredPipe) else none := by
  induction ps with
  | nil => rfl
  | cons p ps ih =>
      rw [List.mapM_cons, pipeOfSource_eq, ih, List.flatMap_cons]
      by_cases hp : countFaults p = []
      · by_cases hps : ps.flatMap countFaults = [] <;> simp [hp, hps]
      · simp [hp]

/-- A query is finished if it has no faults. -/
theorem finish?_eq (q : SourceQuery) :
    q.finish? = if q.faults = [] then some q.recovered else none := by
  rw [SourceQuery.finish?, bodyOfSource_eq, pipesOfSource_eq, SourceQuery.faults]
  by_cases hbody : spanFaults q.body = []
  · by_cases hpipes : q.pipes.flatMap countFaults = [] <;>
      simp [hbody, hpipes, SourceQuery.recovered]
  · simp [hbody]

end Grammar

open Grammar

theorem Query.ofTree_eq {text : List Char} {tree : ParseNode} {source : SourceQuery}
    (h : Reports (Builder.query tree) source.recovered source.faults) : Query.ofTree text tree =
      match source.finish? with
      | some q => .ok q
      | none => .error (source.faults.map (QuantityFault.report text)) := by
  simp only [Query.ofTree, h.run, finish?_eq]
  by_cases hfaults : source.faults = [] <;> simp [hfaults]

/-- **Matching and building fit.** A text outside the grammar is refused. For
any other text the direct reader's query is built, or there is a report on each
of its faults; a tree that is out of shape is never met. -/
theorem Query.ofChars_eq (text : List Char) : Query.ofChars text =
    match (Grammar.query text).read text with
    | none => .error [refusal text]
    | some (source, _) =>
      match source.finish? with
      | some q => .ok q
      | none => .error (source.faults.map (QuantityFault.report text)) := by
  have hbuilds := query_builds text
  unfold Query.ofChars
  -- of the two readers only this matters, and opening them would take long
  generalize Rules.query text = m at hbuilds ⊢
  generalize Grammar.query text = p at hbuilds ⊢
  cases hbuilds.on text with
  | fails hm hp => rw [hm, hp]
  | @takes _ source _ hm hp hn =>
      obtain ⟨n, rfl, -, hn⟩ := hn
      rw [hm, hp]
      exact Query.ofTree_eq hn

theorem Query.ofChars_eq_ok_iff {text : List Char} {q : Query} : Query.ofChars text = .ok q ↔
    ∃ source rest, (Grammar.query text).read text = some (source, rest) ∧
      source.finish? = some q := by
  rw [Query.ofChars_eq]
  constructor
  · intro h
    split at h
    · cases h
    · next source rest hread =>
        split at h
        · next found hfinish =>
            cases h
            exact ⟨source, rest, hread, hfinish⟩
        · cases h
  · rintro ⟨source, rest, hread, hfinish⟩
    simp only [hread, hfinish]

theorem parse_of_finish {text : String} {source : SourceQuery} {rest : List Char} {q : Query}
    (hread : (Grammar.query text.toList).read text.toList = some (source, rest))
    (hfinish : source.finish? = some q) : parse text = .ok q := by
  unfold parse Query.ofText
  rw [Query.ofChars_eq_ok_iff.mpr ⟨source, rest, hread, hfinish⟩]

end EventQuery
