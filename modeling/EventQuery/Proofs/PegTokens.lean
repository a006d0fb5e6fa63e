import EventQuery.Proofs.Peg
import EventQuery.Proofs.ValueReading

/-!
# Tokens by their rules

Every token has two descriptions: the scanner that takes it off a text and
its rule in the grammar. Here they are shown to be one. `Peg.Runs` says of
an expression that a function computes what it leaves of every text; there
is one lemma for each way to form an expression, so the rule of a token
turns into a function step by step, and that function is the scanner.

A rule takes the first of several words that starts the text and then asks
that the word ends there. This finds the word only because no word comes
before a longer one that it begins (`Peg.Ranked`).
-/

namespace EventQuery.Grammar

open Peg

namespace Peg

/-! ## Expressions as functions -/

/-- The function computes what the expression leaves; nothing is marked. -/
def Runs (e : Peg) (f : List Char → Option (List Char)) : Prop :=
  ∀ s, Run e s ((f s).map (·, []))

namespace Runs

variable {e e' : Peg} {f g : List Char → Option (List Char)} {s rest : List Char}

theorem fails (h : Runs e f) (hs : f s = none) : Run e s none := by
  have hrun := h s
  rwa [hs] at hrun

theorem takes (h : Runs e f) (hs : f s = some rest) : Run e s (some (rest, [])) := by
  have hrun := h s
  rwa [hs] at hrun

theorem of_eq (h : Runs e f) (hfg : ∀ s, f s = g s) : Runs e g :=
  fun s => hfg s ▸ h s

theorem text (w : String) : Runs (.text w) (scanText w) := Run.text w

theorem word (w : String) : Runs (.word w) (scanTextAnyCase w) := Run.word w

theorem char (p : Char → Bool) : Runs (.char p) (scanChar p) := Run.char p

theorem symbol {x : Symbol} (h : Runs x.rule f) : Runs (.symbol x) f := fun s => .symbol (h s)

theorem seq (h : Runs e f) (h' : Runs e' g) : Runs (e.seq e') fun s => (f s).bind g := by
  intro s
  show Run _ s (((f s).bind g).map (·, []))
  cases hf : f s with
  | none => exact .seq_fails (h.fails hf)
  | some mid =>
      rw [Option.bind_some]
      cases hg : g mid with
      | none => exact .seq_stops (h.takes hf) (h'.fails hg)
      | some rest => exact .seq (h.takes hf) (h'.takes hg)

theorem alt (h : Runs e f) (h' : Runs e' g) : Runs (e.alt e') fun s => (f s).or (g s) := by
  intro s
  show Run _ s (((f s).or (g s)).map (·, []))
  cases hf : f s with
  | none => exact .alt_second (h.fails hf) (h' s)
  | some rest => exact .alt_first (h.takes hf)

theorem not (h : Runs e f) : Runs (.not e) fun s => if (f s).isSome then none else some s := by
  intro s
  show Run _ s ((if (f s).isSome then none else some s).map (·, []))
  cases hf : f s with
  | none => exact .not_holds (h.fails hf)
  | some rest => exact .not_fails (h.takes hf)

theorem empty : Runs Peg.empty some := by
  refine (text "").of_eq fun s => ?_
  cases s <;> rfl

theorem opt (h : Runs e f) : Runs e.opt fun s => some ((f s).getD s) := by
  refine (h.alt empty).of_eq fun s => ?_
  cases f s <;> rfl

/-- The first of several expressions that succeeds. -/
theorem oneOf {α : Type} {expr : α → Peg} {f : α → List Char → Option (List Char)} :
    ∀ {l : List α}, (∀ a ∈ l, Runs (expr a) (f a)) →
      Runs (Peg.oneOf (l.map expr)) fun s => l.findSome? (f · s)
  | [], _ => (empty.not).of_eq fun s => rfl
  | [a], h => (h a List.mem_cons_self).of_eq fun s => by
      rw [List.findSome?_cons, List.findSome?_nil]
      cases f a s <;> rfl
  | a :: b :: l, h => by
      obtain ⟨ha, hl⟩ := List.forall_mem_cons.mp h
      refine (ha.alt (oneOf hl)).of_eq fun s => ?_
      show (f a s).or ((b :: l).findSome? (f · s)) = (a :: b :: l).findSome? (f · s)
      rw [List.findSome?_cons (a := a)]
      cases f a s <;> rfl

theorem star_char (p : Char → Bool) : Runs (Peg.char p).star fun s => some (s.dropWhile p) := by
  intro s
  induction s with
  | nil => exact .star_ends ((char p).fails rfl)
  | cons c s ih =>
      show Run _ (c :: s) (some ((c :: s).dropWhile p, []))
      by_cases hc : p c = true
      · have hscan : scanChar p (c :: s) = some s := if_pos hc
        rw [List.dropWhile_cons_of_pos hc]
        exact .star_goes ((char p).takes hscan) ih
      · have hscan : scanChar p (c :: s) = none := if_neg hc
        rw [List.dropWhile_cons_of_neg hc]
        exact .star_ends ((char p).fails hscan)

theorem plus_char (p : Char → Bool) :
    Runs (Peg.char p).plus fun s => (scanChar p s).map (·.dropWhile p) := by
  refine ((char p).seq (star_char p)).of_eq fun s => ?_
  cases scanChar p s <;> rfl

end Runs

/-- The rest of a text from where a function first succeeds. -/
def seek (f : List Char → Option (List Char)) : List Char → List Char
  | [] => []
  | c :: s => if (f (c :: s)).isSome then c :: s else seek f s

theorem Runs.upTo {e : Peg} {f : List Char → Option (List Char)} (h : Runs e f) :
    Runs (Peg.upTo e) fun s => some (seek f s) := by
  have hitem := h.not.seq (Runs.char fun _ => true)
  intro s
  induction s with
  | nil =>
      refine .star_ends (hitem.fails ?_)
      cases f [] <;> rfl
  | cons c s ih =>
      show Run _ (c :: s) (some (seek f (c :: s), []))
      cases hf : f (c :: s) with
      | some rest =>
          rw [seek, hf]
          refine .star_ends (hitem.fails ?_)
          rw [hf]
          rfl
      | none =>
          rw [seek, hf]
          refine .star_goes (hitem.takes ?_) ih
          rw [hf]
          rfl

theorem scanText_eq_none {w : String} {s : List Char} (h : ∀ t, s ≠ w.toList ++ t) :
    scanText w s = none := by
  refine if_neg fun hfront => ?_
  obtain ⟨t, ht⟩ := List.isPrefixOf_iff_prefix.mp hfront
  exact h t ht.symm

/-! ## Gaps -/

/-- What follows the comment at the front of a text. -/
def afterComment (s : List Char) : Option (List Char) :=
  ((scanText "/*" s).bind fun s => scanText "*/" (seek (scanText "*/") s)).or
    ((scanText "//" s).map fun s => s.dropWhile (!isLineEnd ·))

theorem seek_lineEnd (s : List Char) :
    seek (fun s => ["\n", "\r\n", "\r"].findSome? (scanText · s)) s
      = s.dropWhile (!isLineEnd ·) := by
  induction s with
  | nil => rfl
  | cons c s ih =>
      have hfound :
          (["\n", "\r\n", "\r"].findSome? (scanText · (c :: s))).isSome = isLineEnd c := by
        by_cases hn : c = '\n'
        · subst hn; rfl
        by_cases hr : c = '\r'
        · subst hr
          cases s with
          | nil => rfl
          | cons d s => simp [scanText, isLineEnd]
        simp [scanText, isLineEnd, hn, hr, Ne.symm hn, Ne.symm hr]
      rw [seek, hfound, ih]
      cases h : isLineEnd c with
      | true => rw [if_pos rfl, List.dropWhile_cons_of_neg (by simp [h])]
      | false => rw [if_neg (by simp), List.dropWhile_cons_of_pos (by simp [h])]

theorem runs_comment : Runs comment afterComment := by
  have hblock := (Runs.text "/*").seq ((Runs.text "*/").upTo.seq (Runs.text "*/"))
  have hfounds : Runs (oneOf [.text "\n", .text "\r\n", .text "\r"]) _ :=
    Runs.oneOf (l := ["\n", "\r\n", "\r"]) fun w _ => Runs.text w
  refine (hblock.alt ((Runs.text "//").seq hfounds.upTo)).of_eq fun s => ?_
  simp only [afterComment, seek_lineEnd]
  cases scanText "//" s <;> rfl

theorem skipGap_dropWhile (s : List Char) : skipGap (s.dropWhile isGapChar) = skipGap s := by
  induction s with
  | nil => rfl
  | cons c s ih =>
      by_cases hc : isGapChar c = true
      · rw [List.dropWhile_cons_of_pos hc, ih, skipGap_blank hc]
      · rw [List.dropWhile_cons_of_neg hc]

theorem skipGapFrom_line_eq (s : List Char) :
    skipGapFrom .line s = skipGap (s.dropWhile (!isLineEnd ·)) := by
  induction s with
  | nil => rfl
  | cons c s ih =>
      rw [skipGapFrom]
      by_cases hc : isLineEnd c = true
      · have hgap : isGapChar c = true := by
          simp only [isLineEnd, isGapChar, Bool.or_eq_true] at hc ⊢
          tauto
        rw [if_pos hc, List.dropWhile_cons_of_neg (by simp [hc]), skipGap_blank hgap]
        rfl
      · rw [if_neg hc, ih, List.dropWhile_cons_of_pos (by simp [hc])]

/-- A block comment is closed where the next star before a slash stands. -/
theorem skipGapFrom_block_eq (s : List Char) :
    (closesComment s = false ∧ scanText "*/" (seek (scanText "*/") s) = none) ∨
      ∃ rest, closesComment s = true ∧ scanText "*/" (seek (scanText "*/") s) = some rest ∧
        skipGapFrom .block s = skipGap rest ∧ rest.length < s.length := by
  fun_induction closesComment s with
  | case1 s => exact .inr ⟨s, rfl, rfl, rfl, by simp only [List.length_cons]; omega⟩
  | case2 c s hopen ih =>
      have hscan : scanText "*/" (c :: s) = none := by
        refine scanText_eq_none fun rest hrest => ?_
        exact hopen rest (List.cons.inj hrest).1 (List.cons.inj hrest).2
      have hseek : seek (scanText "*/") (c :: s) = seek (scanText "*/") s := by
        rw [seek, hscan]
        rfl
      have hskip : skipGapFrom .block (c :: s) = skipGapFrom .block s := by
        rw [skipGapFrom]
        exact hopen
      rw [hseek, hskip, List.length_cons]
      rcases ih with hnone | ⟨rest, hclosed, hsome, hrest, hlt⟩
      · exact .inl hnone
      · exact .inr ⟨rest, hclosed, hsome, hrest, by omega⟩
  | case3 => exact .inl ⟨rfl, rfl⟩

/-- A comment at the front of a text belongs to the gap there; without one
the gap has ended. -/
theorem afterComment_cases (s : List Char) :
    (∃ rest, afterComment s = some rest ∧ skipGap s = skipGap rest ∧ rest.length < s.length) ∨
      (afterComment s = none ∧ (Halts isGapChar s → skipGap s = s)) := by
  by_cases hblock : ∃ t, s = '/' :: '*' :: t
  · obtain ⟨t, rfl⟩ := hblock
    have hafter : afterComment ('/' :: '*' :: t) = scanText "*/" (seek (scanText "*/") t) :=
      Option.or_none
    rw [hafter, skipGap, skipGapFrom]
    rcases skipGapFrom_block_eq t with ⟨hopen, hnone⟩ | ⟨rest, hclosed, hsome, hrest, hlt⟩
    · exact .inr ⟨hnone, fun _ => by rw [hopen]; rfl⟩
    · refine .inl ⟨rest, hsome, by rw [hclosed]; exact hrest, ?_⟩
      simp only [List.length_cons]
      omega
  by_cases hline : ∃ t, s = '/' :: '/' :: t
  · obtain ⟨t, rfl⟩ := hline
    refine .inl ⟨t.dropWhile (!isLineEnd ·), rfl, skipGapFrom_line_eq t, ?_⟩
    have hle := List.length_dropWhile_le (!isLineEnd ·) t
    simp only [List.length_cons]
    omega
  · refine .inr ⟨?_, fun hs => ?_⟩
    · rw [afterComment, scanText_eq_none fun t ht => hblock ⟨t, ht⟩,
        scanText_eq_none fun t ht => hline ⟨t, ht⟩]
      rfl
    · cases s with
      | nil => rfl
      | cons c s =>
          rw [skipGap, skipGapFrom, hs c rfl]
          · rfl
          · rintro t rfl rfl
            exact hline ⟨t, rfl⟩
          · rintro t rfl rfl
            exact hblock ⟨t, rfl⟩

/-- After a gap there is none. -/
theorem skipGapFrom_idem (state : GapState) (s : List Char) :
    skipGap (skipGapFrom state s) = skipGapFrom state s := by
  -- the scan stops at an open comment, at a character of no gap, or at the end
  fun_induction skipGapFrom state s with
  | case3 s hopen => rw [skipGap, skipGapFrom, if_neg hopen]
  | case5 c s hline hblock hgap =>
      rw [skipGap, skipGapFrom, if_neg hgap]
      · exact hline
      · exact hblock
  | case10 => rfl
  | case1 | case2 | case4 | case6 | case7 | case8 | case9 => assumption

theorem skipGap_idem (s : List Char) : skipGap (skipGap s) = skipGap s :=
  skipGapFrom_idem .blank s

theorem runs_gap : Runs gap fun s => some (skipGap s) := by
  have hitem := runs_comment.seq (Runs.star_char isGapChar)
  -- by induction on the length: a comment and the blanks after it leave a shorter text
  have hcomments : ∀ n, ∀ s : List Char, s.length < n → Halts isGapChar s →
      Run (comment.seq blanks).star s (some (skipGap s, [])) := by
    intro n
    induction n with
    | zero => intro s hn; omega
    | succ n ih =>
        intro s hn hs
        rcases afterComment_cases s with ⟨rest, hsome, hskip, hlt⟩ | ⟨hnone, hskip⟩
        · have hle := List.length_dropWhile_le isGapChar rest
          have hrest := ih (rest.dropWhile isGapChar) (by omega) (halts_dropWhile _ _)
          rw [skipGap_dropWhile, ← hskip] at hrest
          exact .star_goes (hitem.takes (by rw [hsome]; rfl)) hrest
        · rw [hskip hs]
          exact .star_ends (hitem.fails (by rw [hnone]; rfl))
  intro s
  have hs := hcomments _ _ (Nat.lt_succ_self _) (halts_dropWhile isGapChar s)
  rw [skipGap_dropWhile] at hs
  exact .seq ((Runs.star_char isGapChar).takes rfl) hs

/-! ## Words -/

theorem scanTextAnyCase_eq_some {w : String} {s rest : List Char} :
    scanTextAnyCase w s = some rest ↔
      ∃ base, s = base ++ rest ∧ base.map Char.toLower = w.toList.map Char.toLower := by
  rw [scanTextAnyCase]
  constructor
  · intro h
    split at h
    · next hfront =>
        cases h
        obtain ⟨tail, htail⟩ := List.isPrefixOf_iff_prefix.mp hfront
        obtain ⟨base, rest, rfl, hbase, -⟩ := List.map_eq_append_iff.mp htail.symm
        have hlen : w.length = base.length := by
          rw [← String.length_toList, ← List.length_map Char.toLower, ← hbase, List.length_map]
        exact ⟨base, by rw [hlen, List.drop_left], hbase⟩
    · cases h
  · rintro ⟨base, rfl, hbase⟩
    have hlen : w.length = base.length := by
      rw [← String.length_toList, ← List.length_map Char.toLower, ← hbase, List.length_map]
    rw [List.map_append, hbase, if_pos, hlen, List.drop_left]
    exact List.isPrefixOf_iff_prefix.mpr (List.prefix_append _ _)

/-- A word is found where it stands as a whole. -/
theorem scanTextAnyCase_of_lowerWord {w : String} {s : List Char}
    (h : lowerWord s = lowerToken w) : scanTextAnyCase w s = some (s.dropWhile isWordChar) :=
  scanTextAnyCase_eq_some.mpr ⟨s.takeWhile isWordChar, List.takeWhile_append_dropWhile.symm,
    String.ofList_injective h⟩

/-- Words of which none begins a later one. -/
structure Ranked (ws : List String) : Prop where
  letters : ∀ w ∈ ws, w.toList.all isWordChar = true
  ordered : ws.Pairwise fun w v => ¬ (lowerToken w).toList <+: (lowerToken v).toList

/-- The first word that starts a text is the word there, if that is one of
them. Otherwise a word found ends within a longer one. -/
theorem Ranked.findSome? {ws : List String} (h : Ranked ws) (s : List Char) :
    (lowerWord s ∈ ws.map lowerToken ∧
        ws.findSome? (scanTextAnyCase · s) = some (s.dropWhile isWordChar)) ∨
      (lowerWord s ∉ ws.map lowerToken ∧
        ∀ rest ∈ ws.findSome? (scanTextAnyCase · s), wordEnds rest = false) := by
  obtain ⟨hletters, hordered⟩ := h
  induction ws with
  | nil => exact .inr ⟨by simp, by simp⟩
  | cons w ws ih =>
      obtain ⟨hw, hws⟩ := List.forall_mem_cons.mp hletters
      obtain ⟨hfirst, hordered⟩ := List.pairwise_cons.mp hordered
      rw [List.map_cons, List.mem_cons, List.findSome?_cons]
      cases hscan : scanTextAnyCase w s with
      | none =>
          have hne : lowerWord s ≠ lowerToken w := by
            intro heq
            rw [scanTextAnyCase_of_lowerWord heq] at hscan
            cases hscan
          simpa only [hne, false_or] using ih hws hordered
      | some rest =>
          obtain ⟨base, rfl, hbase⟩ := scanTextAnyCase_eq_some.mp hscan
          cases hend : wordEnds rest with
          | true =>
              obtain ⟨hlow, hdrop⟩ := word_append hbase hw (wordEnds_iff.mp hend)
              exact .inl ⟨.inl hlow, by rw [hdrop]⟩
          | false =>
              -- the word here goes on after `w`: it is neither `w` nor, by the order, a later one
              refine .inr ⟨?_, ?_⟩
              · rintro (heq | hmem)
                · rw [scanTextAnyCase_of_lowerWord heq] at hscan
                  have hhalts := halts_dropWhile isWordChar (base ++ rest)
                  rw [Option.some.inj hscan, ← wordEnds_iff, hend] at hhalts
                  cases hhalts
                · obtain ⟨v, hv, heq⟩ := List.mem_map.mp hmem
                  have hchars := isWordChar_of_map_toLower hbase hw
                  refine hfirst v hv ?_
                  rw [heq, lowerToken, lowerWord, List.takeWhile_append_of_pos hchars,
                    String.toList_ofList, String.toList_ofList, List.map_append, hbase]
                  exact List.prefix_append _ _
              · rintro _ ⟨⟩
                exact hend

theorem runs_wordEnd : Runs wordEnd fun s => if wordEnds s then some s else none := by
  refine (Runs.char isWordChar).not.of_eq fun s => ?_
  cases s with
  | nil => rfl
  | cons c s =>
      rw [wordEnds, scanChar]
      cases isWordChar c <;> rfl

theorem runs_words {ws : List String} (h : Ranked ws) :
    Runs (words ws) fun s =>
      if lowerWord s ∈ ws.map lowerToken then some (s.dropWhile isWordChar) else none := by
  have hfind := Runs.oneOf (l := ws) fun w _ => Runs.word w
  refine (hfind.seq runs_wordEnd).of_eq fun s => ?_
  rcases h.findSome? s with ⟨hmem, hsome⟩ | ⟨hmem, hends⟩
  · rw [hsome, Option.bind_some, if_pos hmem, if_pos]
    exact wordEnds_iff.mpr (halts_dropWhile _ _)
  · rw [if_neg hmem]
    cases hrest : ws.findSome? (scanTextAnyCase · s) with
    | none => rfl
    | some rest => rw [Option.bind_some, hends rest hrest]; rfl

end Peg

/-! ## Token by token -/

/-- The scanner takes what the rule of the symbol takes. -/
def Symbol.Scans {α : Type} (x : Symbol) (scan : List Char → Option (α × List Char)) : Prop :=
  Runs x.rule fun s => (scan s).map Prod.snd

theorem scans_word {x : Symbol} {ws : List String} (hrule : x.rule = words ws)
    (h : Ranked ws) (hlow : ws.map lowerToken = ws) : x.Scans (scanWord ws) := by
  have hwords := runs_words h
  rw [← hrule, hlow] at hwords
  refine hwords.of_eq fun s => ?_
  rw [scanWord]
  by_cases hmem : lowerWord s ∈ ws
  · rw [if_pos hmem, if_pos (List.contains_iff_mem.mpr hmem)]
    rfl
  · rw [if_neg hmem, if_neg (by simpa using hmem)]
    rfl

theorem scans_keyword {x : Symbol} {w : String} (hrule : x.rule = words [w])
    (hw : w.toList.all isWordChar = true) (hlow : lowerToken w = w) : x.Scans (scanWord [w]) :=
  scans_word hrule ⟨by simpa using hw, List.pairwise_singleton _ _⟩
    (by rw [List.map_singleton, hlow])

theorem scans_boolean : Symbol.boolean.Scans (scanWord ["true", "false"]) :=
  scans_word rfl ⟨by decide, by decide⟩ rfl

theorem map_find?_const {α β : Type} (l : List α) (f : α → String) (x : String) (b : β) :
    (l.find? fun a => f a == x).map (fun _ => b) = if x ∈ l.map f then some b else none := by
  by_cases hx : x ∈ l.map f
  · obtain ⟨a, ha, rfl⟩ := List.mem_map.mp hx
    have hsome : (l.find? fun a' => f a' == f a).isSome := List.find?_isSome.mpr ⟨a, ha, by simp⟩
    obtain ⟨a', ha'⟩ := Option.isSome_iff_exists.mp hsome
    rw [if_pos hx, ha']
    rfl
  · have hnone : (l.find? fun a => f a == x) = none := by
      refine List.find?_eq_none.mpr fun a ha heq => hx ?_
      exact List.mem_map.mpr ⟨a, ha, by simpa using heq⟩
    rw [if_neg hx, hnone]
    rfl

theorem findSome?_ite {α β : Type} (l : List α) (p : α → Bool) (g : α → β) :
    l.findSome? (fun a => if p a then some (g a) else none) = (l.find? p).map g := by
  induction l with
  | nil => rfl
  | cons a l ih =>
      rw [List.findSome?_cons, List.find?_cons, ih]
      cases p a <;> rfl

theorem scans_logicOp : Symbol.logicOp.Scans scanLogicOp := by
  have hranked : Ranked (LogicOp.all.map LogicOp.token) := ⟨by decide, by decide⟩
  refine (runs_words hranked).of_eq fun s => ?_
  rw [scanLogicOp, LogicOp.ofToken?, lowerToken_lowerWord, Option.map_map]
  exact (map_find?_const LogicOp.all LogicOp.token (lowerWord s) _).symm

/-! ### Operators and names -/

theorem scanText_singleton {w : String} {c : Char} (hw : w.toList = [c]) (s : List Char) :
    scanText w s = (scanSign c s).map Prod.snd := by
  rw [scanText, hw, ← String.length_toList, hw]
  cases s with
  | nil => rfl
  | cons d s =>
      rw [scanSign]
      by_cases hd : d = c
      · simp [hd]
      · simp [hd, Ne.symm hd]

theorem scanSign_eq_none {c : Char} {s : List Char} (h : ∀ rest, s ≠ c :: rest) :
    scanSign c s = none := by
  cases s with
  | nil => rfl
  | cons d s =>
      refine if_neg fun hd => ?_
      exact h s (by rw [hd])

theorem runs_text_singleton {w : String} {c : Char} (hw : w.toList = [c]) :
    Runs (.text w) fun s => (scanSign c s).map Prod.snd :=
  (Runs.text w).of_eq (scanText_singleton hw)

theorem scans_optionalMarker : Symbol.optionalMarker.Scans scanOptionalMarker := by
  refine (runs_text_singleton (c := '?') rfl).of_eq fun s => ?_
  rw [scanOptionalMarker.eq_def]
  split
  · rfl
  · next hs => rw [scanSign_eq_none fun rest => hs rest]

theorem scans_compareOp : Symbol.compareOp.Scans scanCompareOp := by
  have hops := Runs.oneOf (l := CompareOp.all) fun op _ => Runs.text op.token
  refine hops.of_eq fun s => ?_
  rw [scanCompareOp, Option.map_map]
  exact findSome?_ite _ _ _

/-- What follows an optional tilde. -/
def dropTilde : List Char → List Char
  | '~' :: rest => rest
  | rest => rest

theorem dropTilde_eq_self {s : List Char} (h : ∀ rest, s ≠ '~' :: rest) : dropTilde s = s := by
  rw [dropTilde]
  exact h

theorem runs_tilde : Runs (opt (.text "~")) fun s => some (dropTilde s) := by
  refine (runs_text_singleton (c := '~') rfl).opt.of_eq fun s => ?_
  rw [dropTilde.eq_def]
  split
  · rfl
  · next hs => rw [scanSign_eq_none fun rest => hs rest]; rfl

theorem scans_callName : Symbol.callName.Scans scanCallName := by
  have hranked : Ranked callNames := ⟨by decide, by decide⟩
  have hnames : (callNames.map lowerToken).Perm (Builtin.all.map fun f => lowerToken f.name) := by
    decide
  refine ((runs_words hranked).seq runs_tilde).of_eq fun s => ?_
  have hfind := map_find?_const Builtin.all (fun f => lowerToken f.name) (lowerWord s)
    (dropTilde (s.dropWhile isWordChar))
  simp only [← hnames.mem_iff] at hfind
  rw [scanCallName, Builtin.ofToken?, lowerToken_lowerWord, Option.map_map]
  refine Eq.trans ?_ (hfind.symm.trans ?_)
  · split <;> rfl
  · refine congrArg (Option.map · _) (funext fun f => ?_)
    rw [Function.comp_apply]
    split
    · next rest hrest => rw [hrest, dropTilde]
    · next hrest => exact dropTilde_eq_self hrest

theorem scans_lookupOp : Symbol.lookupOp.Scans scanLookupOp := by
  have hranked : Ranked ["like", "regex", "in"] := ⟨by decide, by decide⟩
  have hwords : Runs (oneOf [.word "like", .word "regex", .word "in"]) _ :=
    Runs.oneOf (l := ["like", "regex", "in"]) fun w _ => Runs.word w
  refine ((runs_text_singleton (c := ':') rfl).alt
    (hwords.seq (runs_tilde.seq runs_wordEnd))).of_eq fun s => ?_
  rw [scanLookupOp.eq_def]
  split
  · rfl
  · next hcolon =>
      rw [scanSign_eq_none fun rest => hcolon rest, Option.map_none, Option.none_or]
      have hfound := hranked.findSome? s
      rw [show ["like", "regex", "in"].map lowerToken = ["like", "regex", "in"] from rfl] at hfound
      rcases hfound with ⟨hmem, hsome⟩ | ⟨hmem, hends⟩
      · obtain ⟨hplain, htilde⟩ := lookupOp_isSome _ hmem
        obtain ⟨op, hop⟩ := Option.isSome_iff_exists.mp hplain
        obtain ⟨op', hop'⟩ := Option.isSome_iff_exists.mp htilde
        have hhalts := wordEnds_iff.mpr (halts_dropWhile isWordChar s)
        rw [hsome, Option.bind_some, Option.bind_some, if_pos (List.contains_iff_mem.mpr hmem),
          hop, hop']
        by_cases hmark : ∃ rest, s.dropWhile isWordChar = '~' :: rest
        · obtain ⟨rest, hdrop⟩ := hmark
          rw [hdrop]
          show (if wordEnds rest then some rest else none)
            = (if wordEnds rest then some (op', rest) else none).map Prod.snd
          cases wordEnds rest <;> rfl
        · rw [dropTilde_eq_self fun rest hrest => hmark ⟨rest, hrest⟩, if_pos hhalts]
          split
          · next rest hrest => exact absurd ⟨rest, hrest⟩ hmark
          · rfl
      · rw [if_neg (by simpa using hmem), Option.map_none]
        cases hrest : ["like", "regex", "in"].findSome? (scanTextAnyCase · s) with
        | none => rfl
        | some rest =>
            have hends := hends rest hrest
            have hkeep : dropTilde rest = rest := by
              refine dropTilde_eq_self ?_
              rintro tail rfl
              cases hends
            rw [Option.bind_some, Option.bind_some, hkeep, hends]
            rfl

/-! ### Numbers and intervals -/

theorem runs_digits : Runs digits fun s => (Digits.scan s).map Prod.snd := by
  refine (Runs.plus_char Char.isDigit).of_eq fun s => ?_
  cases s with
  | nil => rfl
  | cons c s =>
      rw [scanChar, Digits.scan]
      by_cases hc : c.isDigit = true
      · rw [if_pos hc, List.takeWhile_cons_of_pos hc, List.dropWhile_cons_of_pos hc]
        rfl
      · rw [if_neg hc, List.takeWhile_cons_of_neg hc]
        rfl

theorem runs_minus : Runs (opt (.text "-")) fun s => some (scanMinus s).2 := by
  refine (runs_text_singleton (c := '-') rfl).opt.of_eq fun s => ?_
  rw [scanMinus.eq_def]
  split
  · rfl
  · next hs => rw [scanSign_eq_none fun rest => hs rest]; rfl

theorem runs_fraction :
    Runs (opt (glued [.text ".", digits])) fun s => some (scanFraction s).2 := by
  refine ((runs_text_singleton (c := '.') rfl).seq runs_digits).opt.of_eq fun s => ?_
  rw [scanFraction.eq_def]
  split
  · next s =>
      rw [scanSign, if_pos rfl, Option.map_some, Option.bind_some]
      cases Digits.scan s <;> rfl
  · next hs => rw [scanSign_eq_none fun rest => hs rest]; rfl

theorem runs_exponentSign :
    Runs (opt (oneOf [.text "+", .text "-"])) fun s => some (scanExponentSign s).2 := by
  refine ((runs_text_singleton (c := '+') rfl).alt
    (runs_text_singleton (c := '-') rfl)).opt.of_eq fun s => ?_
  rw [scanExponentSign.eq_def]
  split
  · rfl
  · rfl
  · next hplus hminus =>
      rw [scanSign_eq_none fun rest => hplus rest, scanSign_eq_none fun rest => hminus rest]
      rfl

theorem toLower_eq_e {c : Char} : c.toLower = 'e' ↔ c = 'e' ∨ c = 'E' := by
  refine ⟨fun h => ?_, by rintro (rfl | rfl) <;> rfl⟩
  cases hup : c.isUpper with
  | false => exact .inl (by rw [← h, toLower_of_isUpper_eq_false hup])
  | true =>
      have hlow : c.toLower.val = c.val + ('a'.val - 'A'.val) :=
        congrArg Char.val (dif_pos (of_decide_eq_true hup))
      rw [h] at hlow
      have hval : c.val = 'E'.val := by
        rw [← UInt32.toNat_inj] at hlow ⊢
        rw [isUpper_iff] at hup
        have hd : ('a'.val - 'A'.val).toNat = 32 := rfl
        have he : 'e'.val.toNat = 101 := rfl
        have hE : 'E'.val.toNat = 69 := rfl
        rw [UInt32.toNat_add, hd, he] at hlow
        omega
      exact .inr (Char.ext hval)

theorem runs_exponent :
    Runs (opt (glued [.word "e", opt (oneOf [.text "+", .text "-"]), digits]))
      fun s => some (scanExponent s).2 := by
  refine ((Runs.word "e").seq (runs_exponentSign.seq runs_digits)).opt.of_eq fun s => ?_
  cases s with
  | nil => rfl
  | cons c s =>
      have hscan : scanTextAnyCase "e" (c :: s) = if c = 'e' || c = 'E' then some s else none := by
        refine if_congr ?_ rfl rfl
        rw [List.isPrefixOf_iff_prefix, Bool.or_eq_true, decide_eq_true_iff, decide_eq_true_iff,
          ← toLower_eq_e, @eq_comm _ c.toLower]
        exact List.cons_prefix_cons.trans (and_iff_left List.nil_prefix)
      rw [hscan, scanExponent]
      split
      · rw [Option.bind_some, Option.bind_some]
        cases Digits.scan (scanExponentSign s).2 <;> rfl
      · rfl

theorem scans_number : Symbol.number.Scans scanNumber := by
  refine (runs_minus.seq (runs_digits.seq (runs_fraction.seq (runs_exponent.seq
    runs_wordEnd)))).of_eq fun s => ?_
  simp only [scanNumber, Option.bind_some]
  cases Digits.scan (scanMinus s).2 with
  | none => rfl
  | some found =>
      rw [Option.map_some, Option.bind_some]
      dsimp only
      split <;> rfl

theorem scans_interval : Symbol.interval.Scans scanInterval := by
  have hunits := Runs.oneOf (l := IntervalUnit.all) fun u _ => Runs.text u.suffix
  refine (runs_digits.seq (hunits.seq runs_wordEnd)).of_eq fun s => ?_
  rw [scanInterval]
  cases Digits.scan s with
  | none => rfl
  | some found =>
      have hfind := findSome?_ite IntervalUnit.all (fun u => u.suffix.toList.isPrefixOf found.2)
        fun u => found.2.drop u.suffix.length
      rw [Option.map_some, Option.bind_some]
      dsimp only
      rw [scanUnit]
      refine (congrArg (Option.bind · _) hfind).trans ?_
      cases IntervalUnit.all.find? fun u => u.suffix.toList.isPrefixOf found.2 with
      | none => rfl
      | some u =>
          rw [Option.map_some, Option.bind_some]
          dsimp only
          cases wordEnds (found.2.drop u.suffix.length) <;> rfl

/-! A count and a time span are kept as they stand: what a scanner takes is
the text before what it leaves. -/

theorem scanDigits_split {s digits rest : List Char} (h : Digits.scan s = some (digits, rest)) :
    s = digits ++ rest := by
  rw [Digits.scan] at h
  split at h
  · cases h
  · cases h
    exact List.takeWhile_append_dropWhile.symm

theorem scanMinus_split (s : List Char) : (scanMinus s).1 ++ (scanMinus s).2 = s := by
  rw [scanMinus.eq_def]
  split <;> rfl

theorem scanFraction_split (s : List Char) : (scanFraction s).1 ++ (scanFraction s).2 = s := by
  rw [scanFraction.eq_def]
  split
  · next s =>
      split
      · next digits rest hscan => rw [scanDigits_split hscan]; rfl
      · rfl
  · rfl

theorem scanExponentSign_split (s : List Char) :
    (scanExponentSign s).1 ++ (scanExponentSign s).2 = s := by
  rw [scanExponentSign.eq_def]
  split <;> rfl

theorem scanExponent_split (s : List Char) : (scanExponent s).1 ++ (scanExponent s).2 = s := by
  rw [scanExponent.eq_def]
  split
  · next c s =>
      split
      · split
        · next digits rest hscan =>
            have hsign := scanExponentSign_split s
            rw [scanDigits_split hscan] at hsign
            simpa using hsign
        · rfl
      · rfl
  · rfl

theorem scanNumber_split {s token rest : List Char} (h : scanNumber s = some (token, rest)) :
    s = token ++ rest := by
  simp only [scanNumber] at h
  split at h
  · cases h
  · next digits after hscan =>
      split at h
      · cases h
        calc s = (scanMinus s).1 ++ (digits ++ after) := by
              rw [← scanDigits_split hscan, scanMinus_split]
          _ = (scanMinus s).1 ++ (digits ++ ((scanFraction after).1 ++
                ((scanExponent (scanFraction after).2).1 ++
                  (scanExponent (scanFraction after).2).2))) := by
              rw [scanExponent_split, scanFraction_split]
          _ = _ := by simp only [List.append_assoc]
      · cases h

theorem scanUnit_split {s token rest : List Char} (h : scanUnit s = some (token, rest)) :
    s = token ++ rest := by
  rw [scanUnit] at h
  split at h
  · cases h
  · next u hfind =>
      have hfront := List.find?_some hfind
      obtain ⟨tail, rfl⟩ := List.isPrefixOf_iff_prefix.mp hfront
      rw [← String.length_toList, List.drop_left] at h
      split at h
      · cases h
        rfl
      · cases h

theorem scanInterval_split {s token rest : List Char} (h : scanInterval s = some (token, rest)) :
    s = token ++ rest := by
  rw [scanInterval] at h
  split at h
  · cases h
  · next digits after hdigits =>
      split at h
      · cases h
      · next unit rest hunit =>
          cases h
          rw [scanDigits_split hdigits, scanUnit_split hunit, List.append_assoc]

/-! ### Strings, identifiers and the end -/

theorem scanTripleBody_eq (s : List Char) :
    (scanTripleBody s).map Prod.snd = scanText "\"\"\"" (seek (scanText "\"\"\"") s) := by
  fun_induction scanTripleBody s with
  | case1 s => rfl
  | case2 c s hopen ih =>
      have hscan : scanText "\"\"\"" (c :: s) = none := by
        refine scanText_eq_none fun rest hrest => ?_
        exact hopen rest (List.cons.inj hrest).1 (List.cons.inj hrest).2
      rw [seek, hscan, Option.map_map]
      exact ih
  | case3 => rfl

theorem runs_tripleQuoted : Runs tripleQuoted fun s => (scanTriple s).map Prod.snd := by
  refine ((Runs.text "\"\"\"").seq ((Runs.text "\"\"\"").upTo.seq (Runs.text "\"\"\""))).of_eq
    fun s => ?_
  rw [scanTriple.eq_def]
  split
  · next s =>
      rw [Option.map_map]
      exact (scanTripleBody_eq s).symm
  · next hs => rw [scanText_eq_none fun rest hrest => hs rest hrest]; rfl

/-- What follows a character of a quoted string. -/
def afterQuotedChar : List Char → Option (List Char)
  | '"' :: _ => none
  | '\\' :: _ :: s => some s
  | ['\\'] => none
  | _ :: s => some s
  | [] => none

theorem runs_quotedChar : Runs quotedChar afterQuotedChar := by
  have hends : Runs (oneOf [.text "\"", .text "\\"]) _ :=
    Runs.oneOf (l := ["\"", "\\"]) fun w _ => Runs.text w
  refine (((Runs.text "\\").seq (.char fun _ => true)).alt
    (hends.not.seq (.char fun _ => true))).of_eq fun s => ?_
  fun_cases afterQuotedChar s with
  | case1 => rfl
  | case2 => rfl
  | case3 => rfl
  | case4 c s hquote hpair hend =>
      have hslash : scanText "\\" (c :: s) = none := by
        refine scanText_eq_none fun t ht => ?_
        obtain ⟨rfl, rfl⟩ := List.cons.inj ht
        cases s with
        | nil => exact hend rfl rfl
        | cons d s => exact hpair d s rfl rfl
      have hclose : scanText "\"" (c :: s) = none :=
        scanText_eq_none fun t ht => hquote (List.cons.inj ht).1
      rw [List.findSome?_cons, List.findSome?_cons, hslash, hclose]
      rfl
  | case5 => rfl

/-- The characters of a quoted string are taken up to its end. -/
theorem quotedChars_run (s : List Char) :
    ∃ rest, Run quotedChar.star s (some (rest, [])) ∧
      scanText "\"" rest = (scanQuotedBody s).map Prod.snd := by
  fun_induction scanQuotedBody s with
  | case1 s => exact ⟨'"' :: s, .star_ends (runs_quotedChar.fails rfl), rfl⟩
  | case2 c s ih =>
      obtain ⟨rest, hrun, hrest⟩ := ih
      refine ⟨rest, .star_goes (runs_quotedChar.takes rfl) hrun, ?_⟩
      rw [hrest, Option.map_map]
      rfl
  | case3 => exact ⟨['\\'], .star_ends (runs_quotedChar.fails rfl), rfl⟩
  | case4 c s hquote hpair hend ih =>
      obtain ⟨rest, hrun, hrest⟩ := ih
      have hchar : afterQuotedChar (c :: s) = some s := by
        rw [afterQuotedChar] <;> assumption
      refine ⟨rest, .star_goes (runs_quotedChar.takes hchar) hrun, ?_⟩
      rw [hrest, Option.map_map]
      rfl
  | case5 => exact ⟨[], .star_ends (runs_quotedChar.fails rfl), rfl⟩

theorem runs_quoted : Runs quoted fun s => (scanQuoted s).map Prod.snd := by
  intro s
  show Run quoted s (((scanQuoted s).map Prod.snd).map (·, []))
  by_cases hopen : ∃ t, s = '"' :: t
  · obtain ⟨t, rfl⟩ := hopen
    obtain ⟨rest, hchars, hclose⟩ := quotedChars_run t
    have hquote : Run (.text "\"") ('"' :: t) (some (t, [])) := (Runs.text "\"").takes rfl
    have hscan : (scanQuoted ('"' :: t)).map Prod.snd = scanText "\"" rest := by
      rw [hclose, scanQuoted, Option.map_map]
      rfl
    rw [hscan]
    cases hrest : scanText "\"" rest with
    | none => exact .seq_stops hquote (.seq_stops hchars ((Runs.text "\"").fails hrest))
    | some after => exact .seq hquote (.seq hchars ((Runs.text "\"").takes hrest))
  · have hscan : scanQuoted s = none := by
      rw [scanQuoted]
      exact fun t ht => hopen ⟨t, ht⟩
    rw [hscan]
    exact .seq_fails ((Runs.text "\"").fails (scanText_eq_none fun t ht => hopen ⟨t, ht⟩))

theorem scans_string : Symbol.string.Scans scanString := by
  refine (runs_tripleQuoted.alt runs_quoted).of_eq fun s => ?_
  rw [scanString]
  cases scanTriple s with
  | some found => rfl
  | none => rw [Option.map_none, Option.none_or, Option.map_map]; rfl

theorem runs_reserved : Runs reserved fun s =>
    if lowerWord s ∈ reservedWords then some (s.dropWhile isWordChar) else none :=
  runs_words ⟨by decide, by decide⟩

theorem scans_ident : Symbol.ident.Scans scanIdent := by
  refine (runs_reserved.not.seq ((Runs.char isWordStart).seq
    (Runs.star_char isWordChar))).of_eq fun s => ?_
  cases s with
  | nil => rfl
  | cons c s =>
      rw [scanIdent]
      by_cases hres : lowerWord (c :: s) ∈ reservedWords
      · simp [hres]
      by_cases hstart : isWordStart c = true
      · simp [hres, hstart, scanChar, isWordChar_of_isWordStart hstart]
      · simp [hres, hstart, scanChar]

theorem scans_endOfInput :
    Symbol.endOfInput.Scans fun s => if s.isEmpty then some ((), []) else none := by
  refine (Runs.char fun _ => true).not.of_eq fun s => ?_
  cases s <;> rfl

theorem scans_sign {x : Symbol} {w : String} {c : Char} (hrule : x.rule = .text w)
    (hw : w.toList = [c]) : x.Scans (scanSign c) := by
  rw [Symbol.Scans, hrule]
  exact runs_text_singleton hw

end EventQuery.Grammar
