import EventQuery.Filter
import EventQuery.Proofs.ParserSoundness
import EventQuery.Proofs.PegAgreement

/-!
# Reports on quantities

A text that the grammar matches is refused for one reason only: a count or
a time span in it is out of range. The main statement, `parse_of_run`,
says which reports there are, in terms of a run of the grammar over the
text: one for each marked token out of range, at the place where the token
starts, in the order of the text.

What it means to be in range is said without the readers of tokens
(`QuantityToken.InRange`). A count is digits only. The digits of a time
span are multiplied by its unit. For a token that the grammar lets through
this is what the readers accept (`QuantityToken.Shaped.accepted_iff_inRange`).
-/

namespace EventQuery

/-! ## Quantities that are read -/

theorem quantity_eq_some_iff {token : List Char} {n : Nat} :
    Quantity.ofToken? token = some n ↔
      (Digits.isRun token = true ∧ Digits.value token < Quantity.limit) ∧
        Digits.value token = n := by
  rw [Quantity.ofToken?]
  split
  · next h => simp [h]
  · next h => simp [h]

theorem ofSuffix?_eq_some_iff {s : String} {u : IntervalUnit} :
    IntervalUnit.ofSuffix? s = some u ↔ u.suffix = s := by
  constructor
  · intro h
    simpa using List.find?_some h
  · rintro rfl
    cases u <;> rfl

theorem IntervalUnit.one_le_factor (u : IntervalUnit) : 1 ≤ u.factor := by
  cases u <;> decide

theorem IntervalUnit.mem_all (u : IntervalUnit) : u ∈ IntervalUnit.all := by
  cases u <;> decide

theorem interval_isSome_iff {token : List Char} :
    (Interval.ofToken? token).isSome ↔
      Digits.isRun (token.takeWhile Char.isDigit) = true ∧
        ∃ u : IntervalUnit, token.dropWhile Char.isDigit = u.suffix.toList ∧
          Digits.value (token.takeWhile Char.isDigit) * u.factor < Quantity.limit := by
  simp only [Option.isSome_iff_exists, Interval.ofToken?, bind, pure, Option.bind_eq_some_iff,
    Option.some.injEq, quantity_eq_some_iff, ofSuffix?_eq_some_iff, Interval.millis?]
  constructor
  · rintro ⟨_, n, ⟨⟨hrun, -⟩, rfl⟩, u, hu, total, htotal, rfl⟩
    refine ⟨hrun, u, by rw [hu, String.toList_ofList], ?_⟩
    split at htotal
    · assumption
    · cases htotal
  · rintro ⟨hrun, u, hu, hlt⟩
    -- the number itself is below the limit, because the factor is at least one
    have hvalue := Nat.lt_of_le_of_lt (Nat.le_mul_of_pos_right _ u.one_le_factor) hlt
    exact ⟨_, _, ⟨⟨hrun, hvalue⟩, rfl⟩, u, by rw [hu, String.ofList_toList], _, if_pos hlt, rfl⟩

namespace Grammar

open Peg

/-! ## Tokens in range -/

namespace QuantityToken

/-- Does the token spell a count or a time span below the limit? -/
def InRange : QuantityToken → Prop
  | ⟨.count, t⟩ => t.text.all Char.isDigit = true ∧ Digits.value t.text < Quantity.limit
  | ⟨.span, t⟩ => ∃ u ∈ IntervalUnit.all, t.text.dropWhile Char.isDigit = u.suffix.toList ∧
      Digits.value (t.text.takeWhile Char.isDigit) * u.factor < Quantity.limit

instance : DecidablePred InRange
  | ⟨.count, _⟩ => inferInstanceAs (Decidable (_ ∧ _))
  | ⟨.span, _⟩ => inferInstanceAs (Decidable (∃ u ∈ IntervalUnit.all, _))

def fault : QuantityToken → QuantityFault
  | ⟨.count, t⟩ => .count t
  | ⟨.span, t⟩ => .span t

/-- Is the token read as a quantity? -/
def accepted : QuantityToken → Bool
  | ⟨.count, t⟩ => (Quantity.ofToken? t.text).isSome
  | ⟨.span, t⟩ => (Interval.ofToken? t.text).isSome

/-- The token is one that the grammar lets through. -/
def Shaped : QuantityToken → Prop
  | ⟨.count, t⟩ => IsNumberToken t.text
  | ⟨.span, t⟩ => IsIntervalToken t.text

end QuantityToken

/-- A token that the grammar lets through is read, if it is in range. -/
theorem QuantityToken.Shaped.accepted_iff_inRange {t : QuantityToken} (h : t.Shaped) :
    t.accepted = true ↔ t.InRange := by
  obtain ⟨kind, left, text⟩ := t
  cases kind with
  | count =>
      have hne : text ≠ [] := by
        obtain ⟨c, rest, rfl, -⟩ := IsNumberToken.head h
        exact List.cons_ne_nil _ _
      show (Quantity.ofToken? text).isSome ↔ text.all Char.isDigit = true ∧ _
      simp only [Option.isSome_iff_exists, quantity_eq_some_iff, exists_and_left, exists_eq',
        and_true, isRun_iff, ne_eq, hne, not_false_eq_true, true_and, List.all_eq_true]
  | span =>
      obtain ⟨digits, unit, rfl, hrun⟩ := h
      have hhalts : Halts Char.isDigit unit.suffix.toList := by
        simpa using halts_isDigit_suffix unit []
      have htake := takeWhile_run (isRun_iff.mp hrun).2 hhalts
      show (Interval.ofToken? (digits ++ unit.suffix.toList)).isSome ↔ _
      rw [interval_isSome_iff, htake]
      simp only [hrun, true_and, QuantityToken.InRange, htake, IntervalUnit.mem_all]

/-! ## Reading the tokens of a query -/

theorem faults_singleton (t : QuantityToken) :
    ([t].filter (!·.accepted)).map QuantityToken.fault = if t.accepted then [] else [t.fault] := by
  rw [List.filter_singleton]
  cases t.accepted <;> rfl

theorem spanFaults_eq (b : Body SourceToken) :
    spanFaults b = ((spanTokens b).filter (!·.accepted)).map QuantityToken.fault := by
  cases b with
  | simple q => rfl
  | sample q => rfl
  | sequence q =>
      obtain ⟨keys, span, steps⟩ := q
      cases span with
      | none => rfl
      | some t => exact (faults_singleton (spanToken t)).symm

theorem countFaults_eq (p : Pipe SourceToken) :
    countFaults p = ((countTokens p).filter (!·.accepted)).map QuantityToken.fault := by
  cases p with
  | head t => exact (faults_singleton (countToken t)).symm
  | tail t => exact (faults_singleton (countToken t)).symm
  | count | unique fields | filter c | sort fields => rfl

/-- The faults are those of the tokens that are not read. -/
theorem faults_eq (q : SourceQuery) :
    q.faults = (q.quantities.filter (!·.accepted)).map QuantityToken.fault := by
  rw [SourceQuery.faults, SourceQuery.quantities, List.filter_append, List.map_append,
    spanFaults_eq, List.filter_flatMap, List.map_flatMap]
  exact congrArg _ (List.flatMap_congr fun p _ => countFaults_eq p)

/-- A query is finished, if all its tokens are read. -/
theorem finish?_isSome (q : SourceQuery) :
    q.finish?.isSome = q.quantities.all QuantityToken.accepted := by
  have hnil : q.faults = [] ↔ q.quantities.all QuantityToken.accepted = true := by
    simp [faults_eq]
  rw [finish?_eq]
  by_cases hfaults : q.faults = []
  · rw [if_pos hfaults, hnil.mp hfaults, Option.isSome_some]
  · rw [if_neg hfaults, Bool.eq_false_iff.mpr (mt hnil.mpr hfaults), Option.isSome_none]

theorem shaped_of_wellFormed {q : SourceQuery} (h : SourceQuery.WellFormed q) :
    ∀ t ∈ q.quantities, t.Shaped := by
  obtain ⟨hbody, hpipes⟩ := h
  refine List.forall_mem_append.mpr ⟨?_, ?_⟩
  · obtain ⟨body, pipes⟩ := q
    cases body with
    | simple q => exact List.forall_mem_nil _
    | sample q => exact List.forall_mem_nil _
    | sequence q =>
        obtain ⟨keys, span, steps⟩ := q
        cases span with
        | none => exact List.forall_mem_nil _
        | some t => exact List.forall_mem_singleton.mpr (hbody.maxspan t rfl)
  · intro t ht
    obtain ⟨p, hp, ht⟩ := List.mem_flatMap.mp ht
    have hpipe := hpipes p hp
    cases p with
    | head t' => cases List.mem_singleton.mp ht; exact hpipe
    | tail t' => cases List.mem_singleton.mp ht; exact hpipe
    | count | unique fields | filter c | sort fields => cases ht

/-! ## Places -/

theorem lineColumn_append (before after : List Char) :
    lineColumn (before ++ after) after.length = lineColumnFrom 1 1 before := by
  rw [lineColumn, List.length_append, Nat.add_sub_cancel, List.take_left]

/-- A token that is placed in a text starts where it says it does. -/
theorem Peg.Placed.split {s rest : List Char} {ts : List QuantityToken} (h : Placed s ts rest)
    {t : QuantityToken} (ht : t ∈ ts) :
    ∃ before after, s = before ++ (t.token.text ++ after) ∧
      t.token.left = (t.token.text ++ after).length := by
  induction h with
  | done => cases ht
  | @next first ts before after rest hleft _ ih =>
      rcases List.mem_cons.mp ht with rfl | ht
      · exact ⟨before, after, rfl, hleft⟩
      · obtain ⟨before', after', rfl, hleft'⟩ := ih ht
        refine ⟨before ++ (first.token.text ++ before'), after', ?_, hleft'⟩
        simp only [List.append_assoc]

/-! ## Whole texts -/

/-- What the rule for queries matches is read, and its marks are the tokens
of the query. -/
theorem exists_read_of_run {text rest : List Char} {ts : List QuantityToken}
    (h : Run (.symbol .query) text (some (rest, ts))) :
    ∃ source rest', (query text).read text = some (source, rest') ∧ ts = source.quantities := by
  cases query_agree text with
  | fails hp he => cases he.unique h
  | takes hp he hgap ha =>
      cases he.unique h
      exact ⟨_, _, hp, ha⟩

theorem exists_run_of_read {text rest : List Char} {source : SourceQuery}
    (h : (query text).read text = some (source, rest)) :
    ∃ rest', Run (.symbol .query) text (some (rest', source.quantities)) := by
  cases query_agree text with
  | fails hp he => cases hp.symm.trans h
  | takes hp he hgap ha =>
      cases hp.symm.trans h
      exact ⟨_, ha ▸ he⟩

end Grammar

open Grammar Peg

theorem parse_of_read {text : String} {rest : List Char} {source : SourceQuery}
    (h : (query text.toList).read text.toList = some (source, rest)) :
    parse text = match source.finish? with
      | some q => .ok q
      | none => .error (.malformed (source.faults.map (QuantityFault.report text.toList))) := by
  unfold parse Query.ofText
  rw [Query.ofChars_eq, h]
  dsimp only
  cases source.finish? <;> rfl

/-- **Exact reports on quantities.** A text that the rule for queries
matches is read if every count and time span in it is in range. Otherwise
there is one report for each that is not, in the order of the text, at the
line and column where the token starts; no other report is made. The parse
tree of such a text is built to the end, whatever its tokens are: it is never
out of shape. -/
theorem parse_of_run {text : String} {rest : List Char} {ts : List QuantityToken}
    (h : Run (.symbol .query) text.toList (some (rest, ts))) :
    ((∃ q, parse text = .ok q) ↔ ∀ t ∈ ts, t.InRange) ∧
      ((∃ t ∈ ts, ¬ t.InRange) → parse text = .error (.malformed
        ((ts.filter (¬ ·.InRange)).map fun t => t.fault.report text.toList))) ∧
      Placed text.toList ts rest ∧
      (∀ t ∈ ts, ∃ before after, text.toList = before ++ (t.token.text ++ after) ∧
        lineColumn text.toList t.token.left = lineColumnFrom 1 1 before) ∧
      ∃ tree tail q, (Rules.query text.toList).read text.toList = some ([tree], tail) ∧
        (Builder.query tree).run.run [] =
          (.ok q, (ts.filter (¬ ·.InRange)).map QuantityToken.fault) := by
  obtain ⟨source, rest', hread, rfl⟩ := exists_read_of_run h
  have hshaped := shaped_of_wellFormed (query_yields _ hread)
  have hrange : ∀ t ∈ source.quantities, t.accepted = true ↔ t.InRange :=
    fun t ht => (hshaped t ht).accepted_iff_inRange
  have hall : source.finish?.isSome ↔ ∀ t ∈ source.quantities, t.InRange := by
    rw [finish?_isSome, List.all_eq_true]
    exact forall₂_congr hrange
  -- the tokens that are not read are those out of range
  have hfaults : source.faults
      = (source.quantities.filter (¬ ·.InRange)).map QuantityToken.fault := by
    rw [faults_eq]
    refine congrArg _ (List.filter_congr fun t ht => ?_)
    by_cases hin : t.InRange
    · rw [(hrange t ht).mpr hin, decide_eq_false (not_not_intro hin), Bool.not_true]
    · rw [Bool.eq_false_iff.mpr (mt (hrange t ht).mp hin), decide_eq_true hin, Bool.not_false]
  have hparse := parse_of_read hread
  refine ⟨?_, fun hout => ?_, h.placed, fun t ht => ?_, ?_⟩
  · rw [hparse, ← hall]
    cases source.finish? with
    | none => exact iff_of_false (by rintro ⟨q, hq⟩; cases hq) Bool.false_ne_true
    | some q => exact iff_of_true ⟨q, rfl⟩ rfl
  · have hnone : source.finish? = none := by
      refine Option.not_isSome_iff_eq_none.mp fun hsome => ?_
      obtain ⟨t, ht, hnot⟩ := hout
      exact hnot (hall.mp hsome t ht)
    rw [hparse, hnone, hfaults, List.map_map]
    rfl
  · obtain ⟨before, after, hsplit, hleft⟩ := h.placed.split ht
    refine ⟨before, after, hsplit, ?_⟩
    rw [hsplit, hleft, lineColumn_append]
  · obtain ⟨tree, htree, hbuilt⟩ := exists_tree_of_read hread
    exact ⟨tree, rest', source.recovered, htree, hfaults ▸ hbuilt.run []⟩

/-- A span that is too long only in milliseconds, a count with an exponent and
a negative one are reported. The count between them is in range. -/
theorem parse_of_run_three_reports :
    ∃ rest ts, Run (.symbol .query)
        "sequence with maxspan=213503982335d [a]\n| head 1e3 | head 7\n| tail -5".toList
        (some (rest, ts)) ∧
      parse "sequence with maxspan=213503982335d [a]\n| head 1e3 | head 7\n| tail -5"
        = .error (.malformed
          [⟨1, 23, "interval '213503982335d' is out of range"⟩,
            ⟨2, 8, "expected a non-negative integer count, found '1e3'"⟩,
            ⟨3, 8, "expected a non-negative integer count, found '-5'"⟩]) :=
  have hread : (query
        "sequence with maxspan=213503982335d [a]\n| head 1e3 | head 7\n| tail -5".toList).read _
      = some (⟨.sequence ⟨[], some ⟨47, "213503982335d".toList⟩, [⟨⟨.name "a", none⟩, []⟩]⟩,
          [.head ⟨22, "1e3".toList⟩, .head ⟨11, ['7']⟩, .tail ⟨2, "-5".toList⟩]⟩, []) := rfl
  have ⟨rest, hrun⟩ := exists_run_of_read hread
  ⟨rest, _, hrun, (parse_of_run hrun).2.1 (by decide)⟩

end EventQuery
