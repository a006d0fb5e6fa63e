import EventQuery.Proofs.WellFormed
import Mathlib.Data.List.TakeWhile

/-!
# What the scanners take

A scanner and the token it is for, in both directions:

- what it takes off a text is a token of its kind (`scan..._sound`);
- a token in front of a text that cannot extend it is taken whole
  (`scan..._append`).

What must not follow is said by `Halts`: the next character, if there is
one, is not of a given kind. For most tokens this kind is the word
character, and then it is `wordEnds`.
-/

namespace EventQuery

open Grammar

/-! ## Runs of characters -/

/-- The next character, if there is one, fails `p`. -/
def Halts (p : Char → Bool) (s : List Char) : Prop :=
  ∀ c ∈ s.head?, p c = false

theorem wordEnds_iff {s : List Char} : wordEnds s = true ↔ Halts isWordChar s := by
  cases s <;> simp [wordEnds, Halts]

theorem halts_dropWhile (p : Char → Bool) (s : List Char) : Halts p (s.dropWhile p) := by
  intro c hc
  have hnot := List.head?_dropWhile_not p s
  rwa [hc] at hnot

theorem Halts.mono {p q : Char → Bool} {s : List Char} (h : Halts q s)
    (hpq : ∀ c, p c = true → q c = true) : Halts p s := by
  intro c hc
  have hq := h c hc
  cases hp : p c with
  | false => rfl
  | true => rw [hpq c hp] at hq; exact hq

theorem Halts.append {p : Char → Bool} {s rest : List Char} (h : Halts p s)
    (hrest : s = [] → Halts p rest) : Halts p (s ++ rest) := by
  cases s with
  | nil => exact hrest rfl
  | cons c s => simpa [Halts] using h

theorem takeWhile_of_halts {p : Char → Bool} {rest : List Char} (h : Halts p rest) :
    rest.takeWhile p = [] := by
  cases rest with
  | nil => rfl
  | cons c rest => simp [h c rfl]

theorem dropWhile_of_halts {p : Char → Bool} {rest : List Char} (h : Halts p rest) :
    rest.dropWhile p = rest := by
  cases rest with
  | nil => rfl
  | cons c rest => simp [h c rfl]

theorem takeWhile_run {p : Char → Bool} {run rest : List Char} (hrun : ∀ c ∈ run, p c = true)
    (hrest : Halts p rest) : (run ++ rest).takeWhile p = run := by
  rw [List.takeWhile_append_of_pos hrun, takeWhile_of_halts hrest, List.append_nil]

theorem dropWhile_run {p : Char → Bool} {run rest : List Char} (hrun : ∀ c ∈ run, p c = true)
    (hrest : Halts p rest) : (run ++ rest).dropWhile p = rest := by
  rw [List.dropWhile_append_of_pos hrun, dropWhile_of_halts hrest]

/-! ## Words -/

theorem isWordChar_of_isWordStart {c : Char} (h : isWordStart c = true) :
    isWordChar c = true := by
  simp only [isWordStart, isWordChar, Char.isAlphanum, Bool.or_eq_true] at *
  rcases h with (h | h) | h <;> simp [h]

theorem isWordChar_of_isDigit (c : Char) (h : c.isDigit = true) : isWordChar c = true := by
  simp [isWordChar, Char.isAlphanum, h]

theorem isUpper_iff {c : Char} : c.isUpper = true ↔ 65 ≤ c.val.toNat ∧ c.val.toNat ≤ 90 :=
  decide_eq_true_iff

theorem isLower_iff {c : Char} : c.isLower = true ↔ 97 ≤ c.val.toNat ∧ c.val.toNat ≤ 122 :=
  Bool.and_eq_true_iff.trans (and_congr decide_eq_true_iff decide_eq_true_iff)

theorem isAlpha_iff {c : Char} : c.isAlpha = true ↔ c.isUpper = true ∨ c.isLower = true :=
  Bool.or_eq_true_iff

theorem toLower_of_isUpper_eq_false {c : Char} (h : c.isUpper = false) : c.toLower = c :=
  dif_neg (of_decide_eq_false h)

/-- A capital letter goes to a small letter. -/
theorem isLower_toLower {c : Char} (h : c.isUpper = true) : c.toLower.isLower = true := by
  have hlow : c.toLower.val = c.val + ('a'.val - 'A'.val) :=
    congrArg Char.val (dif_pos (of_decide_eq_true h))
  have hd : ('a'.val - 'A'.val).toNat = 32 := rfl
  rw [isUpper_iff] at h
  rw [isLower_iff, hlow, UInt32.toNat_add, hd]
  omega

theorem isWordChar_of_isAlpha {c : Char} (h : c.isAlpha = true) : isWordChar c = true := by
  simp [isWordChar, Char.isAlphanum, h]

theorem isWordChar_toLower (c : Char) : isWordChar c.toLower = isWordChar c := by
  cases h : c.isUpper with
  | false => rw [toLower_of_isUpper_eq_false h]
  | true =>
      have hlow : c.toLower.isAlpha = true := isAlpha_iff.mpr (.inr (isLower_toLower h))
      have hup : c.isAlpha = true := isAlpha_iff.mpr (.inl h)
      rw [isWordChar_of_isAlpha hlow, isWordChar_of_isAlpha hup]

theorem toLower_toLower (c : Char) : c.toLower.toLower = c.toLower := by
  cases h : c.isUpper with
  | false => rw [toLower_of_isUpper_eq_false h, toLower_of_isUpper_eq_false h]
  | true =>
      have hlow := isLower_iff.mp (isLower_toLower h)
      apply toLower_of_isUpper_eq_false
      rw [Bool.eq_false_iff, ne_eq, isUpper_iff]
      omega

theorem IsWord.isWordChar {s : List Char} (h : IsWord s) : ∀ c ∈ s, isWordChar c = true := by
  cases s with
  | nil => cases h
  | cons c s =>
      intro d hd
      rcases List.mem_cons.mp hd with rfl | hd
      · exact isWordChar_of_isWordStart h.1
      · exact h.2 d hd

theorem lowerToken_lowerWord (s : List Char) : lowerToken (lowerWord s) = lowerWord s := by
  rw [lowerToken, lowerWord, String.toList_ofList, List.map_map]
  exact congrArg String.ofList (List.map_congr_left fun c _ => toLower_toLower c)

/-- The word in front of a text that does not extend it. -/
theorem lowerWord_append {w rest : List Char} (hw : ∀ c ∈ w, isWordChar c = true)
    (hrest : Halts isWordChar rest) :
    lowerWord (w ++ rest) = String.ofList (w.map Char.toLower) := by
  rw [lowerWord, takeWhile_run hw hrest]

theorem scanWord_append {words : List String} {w rest : List Char}
    (hmem : String.ofList (w.map Char.toLower) ∈ words)
    (hw : ∀ c ∈ w, isWordChar c = true) (hrest : Halts isWordChar rest) :
    scanWord words (w ++ rest) = some (String.ofList w, rest) := by
  rw [scanWord, lowerWord_append hw hrest, if_pos (List.contains_iff_mem.mpr hmem),
    takeWhile_run hw hrest, dropWhile_run hw hrest]

theorem scanWord_eq_none {words : List String} {s : List Char} (h : lowerWord s ∉ words) :
    scanWord words s = none := by
  rw [scanWord, if_neg (by simpa using h)]

theorem lowerToken_takeWhile (s : List Char) :
    lowerToken (String.ofList (s.takeWhile isWordChar)) = lowerWord s := by
  rw [lowerToken, lowerWord, String.toList_ofList]

theorem scanWord_cases (words : List String) (s : List Char) :
    (lowerWord s ∉ words ∧ scanWord words s = none) ∨
    (lowerWord s ∈ words ∧ scanWord words s =
      some (String.ofList (s.takeWhile isWordChar), s.dropWhile isWordChar)) := by
  by_cases h : lowerWord s ∈ words
  · exact .inr ⟨h, by rw [scanWord, if_pos (List.contains_iff_mem.mpr h)]⟩
  · exact .inl ⟨h, scanWord_eq_none h⟩

theorem lookupOp_isSome : ∀ w ∈ ["like", "regex", "in"],
    (LookupOp.ofToken? w).isSome ∧ (LookupOp.ofToken? (w ++ "~")).isSome := by
  decide

theorem scanWord_sound {words : List String} {s rest : List Char} {raw : String}
    (h : scanWord words s = some (raw, rest)) : lowerToken raw ∈ words := by
  rw [scanWord] at h
  split at h
  · next hmem =>
      obtain ⟨rfl, -⟩ := Prod.mk.injEq .. |>.mp (Option.some.inj h)
      simpa [lowerToken, lowerWord] using hmem
  · cases h

theorem scanIdent_append {name : String} {rest : List Char} (h : IsIdent name)
    (hrest : Halts isWordChar rest) : scanIdent (name.toList ++ rest) = some (name, rest) := by
  obtain ⟨hword, hfree⟩ := h
  have hchars := hword.isWordChar
  have hlow := lowerWord_append hchars hrest
  have htake := takeWhile_run hchars hrest
  have hdrop := dropWhile_run hchars hrest
  revert hword hlow htake hdrop
  cases hs : name.toList with
  | nil => intro hword; cases hword
  | cons c s =>
      intro hword hlow htake hdrop
      rw [List.cons_append] at *
      rw [scanIdent, hlow, htake, hdrop, if_pos, ← hs, String.ofList_toList]
      rw [← hs]
      simpa [hword.1, lowerToken] using hfree

theorem scanIdent_sound {s rest : List Char} {name : String}
    (h : scanIdent s = some (name, rest)) : IsIdent name := by
  cases s with
  | nil => cases h
  | cons c s =>
      rw [scanIdent] at h
      split at h
      · next hc =>
          obtain ⟨rfl, -⟩ := Prod.mk.injEq .. |>.mp (Option.some.inj h)
          simp only [Bool.and_eq_true, Bool.not_eq_true', List.contains_eq_mem,
            decide_eq_false_iff_not] at hc
          refine ⟨?_, by simpa [lowerToken, lowerWord] using hc.2⟩
          rw [String.toList_ofList, List.takeWhile_cons_of_pos (isWordChar_of_isWordStart hc.1)]
          exact ⟨hc.1, fun d hd => List.mem_takeWhile_imp hd⟩
      · cases h

/-! ## Digits, numbers and intervals -/

theorem isRun_iff {s : List Char} :
    Digits.isRun s = true ↔ s ≠ [] ∧ ∀ c ∈ s, c.isDigit = true := by
  simp [Digits.isRun]

theorem scanDigits_append {digits rest : List Char} (h : Digits.isRun digits = true)
    (hrest : Halts Char.isDigit rest) :
    Digits.scan (digits ++ rest) = some (digits, rest) := by
  obtain ⟨hne, hall⟩ := isRun_iff.mp h
  rw [Digits.scan, takeWhile_run hall hrest, dropWhile_run hall hrest]
  cases digits with
  | nil => exact absurd rfl hne
  | cons d digits => rfl

theorem scanDigits_sound {s digits rest : List Char} (h : Digits.scan s = some (digits, rest)) :
    Digits.isRun digits = true := by
  rw [Digits.scan] at h
  split at h
  · cases h
  · next hne =>
      obtain ⟨rfl, -⟩ := Prod.mk.injEq .. |>.mp (Option.some.inj h)
      exact isRun_iff.mpr ⟨hne, fun c hc => List.mem_takeWhile_imp hc⟩

theorem scanDigits_eq_none {s : List Char} (h : Halts Char.isDigit s) :
    Digits.scan s = none := by
  rw [Digits.scan, takeWhile_of_halts h]

/-- A run of digits starts with a digit. -/
theorem exists_digit_of_isRun {digits : List Char} (h : Digits.isRun digits = true) :
    ∃ d ds, digits = d :: ds ∧ d.isDigit = true := by
  obtain ⟨hne, hall⟩ := isRun_iff.mp h
  obtain ⟨d, ds, rfl⟩ := List.exists_cons_of_ne_nil hne
  exact ⟨d, ds, rfl, hall d List.mem_cons_self⟩

theorem scanMinus_append {minus digits rest : List Char} (h : minus = [] ∨ minus = ['-'])
    (hd : Digits.isRun digits = true) :
    scanMinus (minus ++ (digits ++ rest)) = (minus, digits ++ rest) := by
  rcases h with rfl | rfl
  · obtain ⟨d, ds, rfl, hdigit⟩ := exists_digit_of_isRun hd
    have hne : d ≠ '-' := by rintro rfl; revert hdigit; decide
    rw [List.nil_append, List.cons_append, scanMinus]
    rintro s heq
    exact hne (List.cons.inj heq).1
  · rfl

theorem scanFraction_append {fraction rest : List Char} (h : IsFraction fraction)
    (hrest : Halts Char.isDigit rest) (hpoint : fraction = [] → rest.head? ≠ some '.') :
    scanFraction (fraction ++ rest) = (fraction, rest) := by
  rcases h with rfl | ⟨digits, rfl, hrun⟩
  · rw [List.nil_append, scanFraction]
    rintro s rfl
    exact hpoint rfl rfl
  · rw [List.cons_append, scanFraction, scanDigits_append hrun hrest]

theorem scanExponentSign_append {sign digits rest : List Char} (h : IsExponentSign sign)
    (hd : Digits.isRun digits = true) :
    scanExponentSign (sign ++ (digits ++ rest)) = (sign, digits ++ rest) := by
  rcases h with rfl | rfl | rfl
  · obtain ⟨d, ds, rfl, hdigit⟩ := exists_digit_of_isRun hd
    have hplus : d ≠ '+' := by rintro rfl; revert hdigit; decide
    have hminus : d ≠ '-' := by rintro rfl; revert hdigit; decide
    rw [List.nil_append, List.cons_append, scanExponentSign]
    · rintro s heq
      exact hplus (List.cons.inj heq).1
    · rintro s heq
      exact hminus (List.cons.inj heq).1
  · rfl
  · rfl

theorem scanExponent_append {exponent rest : List Char} (h : IsExponent exponent)
    (hrest : Halts isWordChar rest) : scanExponent (exponent ++ rest) = (exponent, rest) := by
  rcases h with rfl | ⟨mark, sign, digits, rfl, hmark, hsign, hrun⟩
  · cases rest with
    | nil => rfl
    | cons c rest =>
        have hc := hrest c rfl
        rw [List.nil_append, scanExponent, if_neg]
        intro hmark
        simp only [Bool.or_eq_true, decide_eq_true_eq] at hmark
        rcases hmark with rfl | rfl <;> revert hc <;> decide
  · have hdigits := scanDigits_append hrun (hrest.mono isWordChar_of_isDigit)
    have hmark' : (mark = 'e' || mark = 'E') = true := by simpa using hmark
    rw [List.append_assoc, List.cons_append, scanExponent, if_pos hmark',
      scanExponentSign_append hsign hrun, hdigits]

/-- What may follow the digits of a number does not extend them. -/
theorem halts_isDigit_exponent {exponent rest : List Char} (h : IsExponent exponent)
    (hrest : Halts isWordChar rest) : Halts Char.isDigit (exponent ++ rest) := by
  refine Halts.append ?_ fun _ => hrest.mono isWordChar_of_isDigit
  rcases h with rfl | ⟨mark, sign, digits, rfl, rfl | rfl, -, -⟩
  · intro c hc; cases hc
  · intro c hc; cases hc; decide
  · intro c hc; cases hc; decide

theorem halts_isDigit_fraction {fraction rest : List Char} (h : IsFraction fraction)
    (hrest : Halts Char.isDigit rest) : Halts Char.isDigit (fraction ++ rest) := by
  refine Halts.append ?_ fun _ => hrest
  rcases h with rfl | ⟨digits, rfl, -⟩
  · intro c hc; cases hc
  · intro c hc; cases hc; decide

theorem head?_exponent_ne_point {exponent rest : List Char} (h : IsExponent exponent)
    (hrest : Halts isWordChar rest) : (exponent ++ rest).head? ≠ some '.' := by
  rcases h with rfl | ⟨mark, sign, digits, rfl, rfl | rfl, -, -⟩
  · intro hpoint
    exact absurd (hrest '.' hpoint) (by decide)
  · simp
  · simp

theorem scanNumber_append {s rest : List Char} (h : IsNumberToken s)
    (hrest : Halts isWordChar rest) : scanNumber (s ++ rest) = some (s, rest) := by
  obtain ⟨minus, digits, fraction, exponent, rfl, hminus, hrun, hfraction, hexponent⟩ := h
  have hafter := halts_isDigit_exponent hexponent hrest
  have hdigits := scanDigits_append hrun (halts_isDigit_fraction hfraction hafter)
  have hpoint := scanFraction_append hfraction hafter
    fun _ => head?_exponent_ne_point hexponent hrest
  have hsplit : minus ++ digits ++ fraction ++ exponent ++ rest
      = minus ++ (digits ++ (fraction ++ (exponent ++ rest))) := by
    simp only [List.append_assoc]
  rw [hsplit, scanNumber]
  simp only [scanMinus_append hminus hrun, hdigits, hpoint,
    scanExponent_append hexponent hrest, wordEnds_iff.mpr hrest, if_true]

theorem scanMinus_sound (s : List Char) : (scanMinus s).1 = [] ∨ (scanMinus s).1 = ['-'] := by
  rw [scanMinus.eq_def]
  split
  · exact .inr rfl
  · exact .inl rfl

theorem scanFraction_sound (s : List Char) : IsFraction (scanFraction s).1 := by
  rw [scanFraction.eq_def]
  split
  · next s =>
      split
      · next digits rest hscan => exact .inr ⟨digits, rfl, scanDigits_sound hscan⟩
      · exact .inl rfl
  · exact .inl rfl

theorem scanExponentSign_sound (s : List Char) : IsExponentSign (scanExponentSign s).1 := by
  rw [scanExponentSign.eq_def]
  split
  · exact .inr (.inl rfl)
  · exact .inr (.inr rfl)
  · exact .inl rfl

theorem scanExponent_sound (s : List Char) : IsExponent (scanExponent s).1 := by
  rw [scanExponent.eq_def]
  split
  · next c s =>
      split
      · next hmark =>
          split
          · next digits rest hscan =>
              exact .inr ⟨c, _, digits, rfl, by simpa using hmark, scanExponentSign_sound s,
                scanDigits_sound hscan⟩
          · exact .inl rfl
      · exact .inl rfl
  · exact .inl rfl

theorem scanNumber_sound {s token rest : List Char} (h : scanNumber s = some (token, rest)) :
    IsNumberToken token := by
  simp only [scanNumber] at h
  split at h
  · cases h
  · next digits s' hscan =>
      split at h
      · obtain ⟨rfl, -⟩ := Prod.mk.injEq .. |>.mp (Option.some.inj h)
        exact ⟨_, digits, _, _, rfl, scanMinus_sound s, scanDigits_sound hscan,
          scanFraction_sound s', scanExponent_sound _⟩
      · cases h

theorem scanUnit_append (u : IntervalUnit) {rest : List Char} (hrest : Halts isWordChar rest) :
    scanUnit (u.suffix.toList ++ rest) = some (u.suffix.toList, rest) := by
  -- `ms` is tried before `m`, so the text after an `m` must not start with `s`
  have hs : ['s'].isPrefixOf rest = false := by
    cases rest with
    | nil => rfl
    | cons c rest =>
        have hc : 's' ≠ c := by
          rintro rfl
          exact absurd (hrest 's' rfl) (by decide)
        simp [List.isPrefixOf, hc]
  have hfind :
      IntervalUnit.all.find? (fun v => v.suffix.toList.isPrefixOf (u.suffix.toList ++ rest))
        = some u := by
    cases u <;> simp [IntervalUnit.all, IntervalUnit.suffix, List.isPrefixOf, hs]
  have hdrop : (u.suffix.toList ++ rest).drop u.suffix.length = rest := by
    rw [← String.length_toList, List.drop_left]
  rw [scanUnit, hfind]
  simp only [hdrop, wordEnds_iff.mpr hrest, if_true]

theorem halts_isDigit_suffix (u : IntervalUnit) (rest : List Char) :
    Halts Char.isDigit (u.suffix.toList ++ rest) := by
  cases u <;> simp [IntervalUnit.suffix, Halts]

theorem scanInterval_append {digits rest : List Char} {u : IntervalUnit}
    (h : Digits.isRun digits = true) (hrest : Halts isWordChar rest) :
    scanInterval (digits ++ u.suffix.toList ++ rest) = some (digits ++ u.suffix.toList, rest) := by
  rw [List.append_assoc, scanInterval, scanDigits_append h (halts_isDigit_suffix u rest)]
  simp only [scanUnit_append u hrest]

theorem scanUnit_sound {s token rest : List Char} (h : scanUnit s = some (token, rest)) :
    ∃ u : IntervalUnit, token = u.suffix.toList := by
  rw [scanUnit] at h
  split at h
  · cases h
  · next u _ =>
      split at h
      · obtain ⟨rfl, -⟩ := Prod.mk.injEq .. |>.mp (Option.some.inj h)
        exact ⟨u, rfl⟩
      · cases h

theorem scanInterval_sound {s token rest : List Char}
    (h : scanInterval s = some (token, rest)) : IsIntervalToken token := by
  rw [scanInterval] at h
  split at h
  · cases h
  · next digits s' hdigits =>
      split at h
      · cases h
      · next unit s'' hunit =>
          obtain ⟨rfl, -⟩ := Prod.mk.injEq .. |>.mp (Option.some.inj h)
          obtain ⟨u, rfl⟩ := scanUnit_sound hunit
          exact ⟨digits, u, rfl, scanDigits_sound hdigits⟩

/-! ## Strings -/

theorem scanQuotedBody_append {body rest : List Char} (h : QuotedBody body) :
    scanQuotedBody (body ++ '"' :: rest) = some (body ++ ['"'], rest) := by
  induction h with
  | nil => rfl
  | pair c h ih => simp [scanQuotedBody, ih]
  | @plain c s hq hb h ih =>
      rw [List.cons_append, scanQuotedBody]
      · simp [ih]
      · rintro rfl; exact hq rfl
      · rintro d tail rfl; exact absurd rfl hb
      · rintro rfl; exact absurd rfl hb

theorem scanQuotedBody_sound {s token rest : List Char}
    (h : scanQuotedBody s = some (token, rest)) :
    ∃ body, token = body ++ ['"'] ∧ QuotedBody body := by
  fun_induction scanQuotedBody s generalizing token with
  | case1 s =>
      obtain ⟨rfl, -⟩ := Prod.mk.injEq .. |>.mp (Option.some.inj h)
      exact ⟨[], rfl, .nil⟩
  | case2 c s ih =>
      obtain ⟨⟨token', rest'⟩, hscan, heq⟩ := Option.map_eq_some_iff.mp h
      obtain ⟨rfl, rfl⟩ := Prod.mk.injEq .. |>.mp heq
      obtain ⟨body, rfl, hbody⟩ := ih hscan
      exact ⟨'\\' :: c :: body, rfl, .pair c hbody⟩
  | case3 => cases h
  | case4 c s hquote hpair hend ih =>
      obtain ⟨⟨token', rest'⟩, hscan, heq⟩ := Option.map_eq_some_iff.mp h
      obtain ⟨rfl, rfl⟩ := Prod.mk.injEq .. |>.mp heq
      obtain ⟨body, rfl, hbody⟩ := ih hscan
      refine ⟨c :: body, rfl, .plain hquote ?_ hbody⟩
      rintro rfl
      cases s with
      | nil => exact hend rfl rfl
      | cons d s => exact hpair d s rfl rfl
  | case5 => cases h

theorem TripleBody.tail {c : Char} {body : List Char} (h : TripleBody (c :: body)) :
    TripleBody body :=
  fun hinside => h (hinside.trans (List.suffix_cons c _).isInfix)

/-- The closing quotes do not start within the body. -/
theorem TripleBody.not_threeQuotes_front {c : Char} {body rest : List Char}
    (h : TripleBody (c :: body)) :
    ¬ threeQuotes <+: c :: body ++ threeQuotes ++ rest := by
  intro hfront
  refine h (List.IsPrefix.isInfix ?_)
  have hlonger : c :: body ++ ['"', '"'] <+: c :: body ++ threeQuotes ++ rest :=
    ⟨'"' :: rest, by simp [threeQuotes]⟩
  exact List.prefix_of_prefix_length_le hfront hlonger (by simp [threeQuotes])

theorem scanTripleBody_append {body rest : List Char} (h : TripleBody body) :
    scanTripleBody (body ++ threeQuotes ++ rest) = some (body ++ threeQuotes, rest) := by
  induction body with
  | nil => rfl
  | cons c body ih =>
      rw [List.cons_append, List.cons_append, scanTripleBody, ih h.tail]
      · rfl
      · rintro s rfl heq
        exact h.not_threeQuotes_front ⟨s, by simpa [threeQuotes] using heq.symm⟩

theorem scanTripleBody_sound {s token rest : List Char}
    (h : scanTripleBody s = some (token, rest)) :
    ∃ body, token = body ++ threeQuotes ∧ s = body ++ threeQuotes ++ rest ∧ TripleBody body := by
  fun_induction scanTripleBody s generalizing token with
  | case1 s =>
      obtain ⟨rfl, rfl⟩ := Prod.mk.injEq .. |>.mp (Option.some.inj h)
      exact ⟨[], rfl, rfl, by unfold TripleBody; decide⟩
  | case2 c s hopen ih =>
      obtain ⟨⟨token', rest'⟩, hscan, heq⟩ := Option.map_eq_some_iff.mp h
      obtain ⟨rfl, rfl⟩ := Prod.mk.injEq .. |>.mp heq
      obtain ⟨body, rfl, rfl, hbody⟩ := ih hscan
      refine ⟨c :: body, rfl, rfl, fun hinside => ?_⟩
      rcases List.infix_cons_iff.mp hinside with hfront | hinside
      · obtain ⟨tail, htail⟩ := hfront
        have hc : '"' = c := (List.cons.inj htail).1
        have hbody' : ['"', '"'] ++ tail = body ++ ['"', '"'] := (List.cons.inj htail).2
        refine hopen (tail ++ '"' :: rest') hc.symm ?_
        rw [show body ++ threeQuotes = body ++ ['"', '"'] ++ ['"'] by simp [threeQuotes], ← hbody']
        simp
      · exact hbody hinside
  | case3 => cases h

theorem scanTriple_quoted {body rest : List Char} (h : QuotedBody body)
    (hrest : rest.head? ≠ some '"') : scanTriple ('"' :: (body ++ '"' :: rest)) = none := by
  rw [scanTriple]
  rintro s heq
  cases h with
  | nil =>
      cases rest with
      | nil => simp at heq
      | cons c rest =>
          simp only [List.nil_append, List.cons.injEq, true_and] at heq
          exact hrest (by simp [heq.1])
  | pair c h => simp at heq
  | plain hq hb h =>
      simp only [List.cons_append, List.cons.injEq, true_and] at heq
      exact hq heq.1

theorem scanString_append {token rest : List Char} (h : IsStringToken token)
    (hrest : rest.head? ≠ some '"') :
    scanString (token ++ rest) = some (String.ofList token, rest) := by
  rw [scanString]
  cases h with
  | @triple body h =>
      have hscan : scanTriple (threeQuotes ++ body ++ threeQuotes ++ rest)
          = some (threeQuotes ++ body ++ threeQuotes, rest) := by
        simp only [threeQuotes, List.cons_append, List.nil_append, List.append_assoc, scanTriple]
        have hbody : scanTripleBody (body ++ threeQuotes ++ rest)
            = some (body ++ threeQuotes, rest) := scanTripleBody_append h
        simp only [threeQuotes, List.cons_append, List.nil_append, List.append_assoc] at hbody
        simp [hbody]
      rw [hscan]
  | @quoted body h =>
      have hsplit : '"' :: body ++ ['"'] ++ rest = '"' :: (body ++ '"' :: rest) := by simp
      rw [hsplit, scanTriple_quoted h hrest, scanQuoted, scanQuotedBody_append h]
      rfl

theorem scanString_sound {s rest : List Char} {raw : String}
    (h : scanString s = some (raw, rest)) : IsStringToken raw.toList := by
  rw [scanString] at h
  split at h
  · next token rest' htriple =>
      obtain ⟨rfl, -⟩ := Prod.mk.injEq .. |>.mp (Option.some.inj h)
      rw [scanTriple.eq_def] at htriple
      split at htriple
      · obtain ⟨⟨token', rest''⟩, hscan, heq⟩ := Option.map_eq_some_iff.mp htriple
        obtain ⟨rfl, -⟩ := Prod.mk.injEq .. |>.mp heq
        obtain ⟨body, rfl, -, hbody⟩ := scanTripleBody_sound hscan
        rw [String.toList_ofList]
        exact .triple hbody
      · cases htriple
  · obtain ⟨⟨token, rest'⟩, hquoted, heq⟩ := Option.map_eq_some_iff.mp h
    obtain ⟨rfl, -⟩ := Prod.mk.injEq .. |>.mp heq
    rw [scanQuoted.eq_def] at hquoted
    split at hquoted
    · obtain ⟨⟨token', rest''⟩, hscan, heq⟩ := Option.map_eq_some_iff.mp hquoted
      obtain ⟨rfl, -⟩ := Prod.mk.injEq .. |>.mp heq
      obtain ⟨body, rfl, hbody⟩ := scanQuotedBody_sound hscan
      rw [String.toList_ofList]
      exact .quoted hbody
    · cases hquoted

end EventQuery
