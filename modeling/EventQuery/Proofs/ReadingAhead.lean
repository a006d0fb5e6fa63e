import EventQuery.Proofs.Reading
import EventQuery.Proofs.Spelling

/-!
# Reading what is ahead

A reader meets the text of a token together with all that follows it.
The judgments here keep track of that without naming the texts:

- `Ahead ts s`: the text `s` starts with a token and spells `ts`;
- `Ends p ts`: whatever spells `ts`, its first character fails `p`;
- `Reads k p a s ts`: on `s` the reader `p` reads `a`, takes at least
  `k` characters, and after a gap the tokens `ts` are ahead.

`Reads` has one rule per combinator, like `Yields`, so the reading of a
construct follows the text of its grammar rule.
-/

namespace EventQuery

open Grammar Reader

/-! ## Words in any case -/

/-- Does the text start like a word? -/
def startsWord (s : List Char) : Bool := s.head?.any isWordStart

theorem isWordStart_toLower (c : Char) : isWordStart c.toLower = isWordStart c := by
  cases h : c.isUpper with
  | false => rw [toLower_of_isUpper_eq_false h]
  | true =>
      have hlow : c.toLower.isAlpha = true := isAlpha_iff.mpr (.inr (isLower_toLower h))
      have hup : c.isAlpha = true := isAlpha_iff.mpr (.inl h)
      simp [isWordStart, hlow, hup]

theorem startsWord_map_toLower (s : List Char) :
    startsWord (s.map Char.toLower) = startsWord s := by
  cases s with
  | nil => rfl
  | cons c s => exact isWordStart_toLower c

theorem startsWord_append {s : List Char} (h : startsWord s = true) (rest : List Char) :
    startsWord (s ++ rest) = true := by
  cases s with
  | nil => cases h
  | cons c s => exact h

theorem halts_of_startsWord {p : Char → Bool} {s : List Char}
    (hp : ∀ c, isWordStart c = true → p c = false) (h : startsWord s = true) : Halts p s := by
  intro c hc
  rw [startsWord, Option.mem_def.mp hc] at h
  exact hp c h

theorem Halts.head_ne {d : Char} {s : List Char} (h : Halts (· = d) s) : s.head? ≠ some d := by
  intro heq
  simpa using h d heq

/-- A test for signs: no word starts with one. -/
theorem word_ne {d : Char} (hd : isWordStart d = false) :
    ∀ c, isWordStart c = true → decide (c = d) = false := by
  intro c hc
  refine decide_eq_false ?_
  rintro rfl
  rw [hc] at hd
  cases hd

theorem head_ne_of_startsWord {d : Char} {s : List Char} (h : startsWord s = true)
    (hd : isWordStart d = false) : s.head? ≠ some d :=
  (halts_of_startsWord (word_ne hd) h).head_ne

theorem startsWord_ne_nil {s : List Char} (h : startsWord s = true) : s ≠ [] := by
  rintro rfl
  cases h

theorem startsWord_of_head {s : List Char} {c : Char} (h : s.head? = some c)
    (hc : isWordStart c = false) : startsWord s = false := by
  rw [startsWord, h]
  exact hc

theorem halts_cons {p : Char → Bool} {c : Char} {s : List Char} (h : p c = false) :
    Halts p (c :: s) := by
  intro d hd
  obtain rfl := Option.some.inj hd
  exact h

theorem lowerWord_of_halts {s : List Char} (h : Halts isWordChar s) : lowerWord s = "" := by
  rw [lowerWord, takeWhile_of_halts h]
  rfl

theorem startsWord_lowerWord (s : List Char) :
    startsWord (lowerWord s).toList = startsWord s := by
  cases s with
  | nil => rfl
  | cons c s =>
      rw [lowerWord, String.toList_ofList, startsWord_map_toLower]
      by_cases hc : isWordChar c = true
      · rw [List.takeWhile_cons_of_pos hc]
        rfl
      · rw [List.takeWhile_cons_of_neg hc]
        have hstart : isWordStart c = false :=
          Bool.eq_false_iff.mpr fun h => hc (isWordChar_of_isWordStart h)
        exact hstart.symm

theorem startsWord_of_lowerWord {w : String} {s : List Char} (h : lowerWord s = w)
    (hw : startsWord w.toList = true) : startsWord s = true := by
  rw [← startsWord_lowerWord, h, hw]

/-- A text that does not start like a word starts with no word. -/
theorem lowerWord_ne {w : String} {s : List Char} (hs : startsWord s = false)
    (hw : startsWord w.toList = true) : lowerWord s ≠ w := by
  rintro rfl
  rw [startsWord_lowerWord, hs] at hw
  cases hw

/-- A character that is no small letter is only in lower case itself. -/
theorem eq_of_toLower_eq {c d : Char} (h : c.toLower = d) (hd : d.isLower = false) : c = d := by
  cases hc : c.isUpper with
  | false => rw [← h, toLower_of_isUpper_eq_false hc]
  | true => rw [← h, isLower_toLower hc] at hd; cases hd

/-- A text that is a word up to case starts like it. -/
theorem startsWord_of_map_toLower {s w : List Char}
    (h : s.map Char.toLower = w.map Char.toLower) : startsWord s = startsWord w := by
  rw [← startsWord_map_toLower, h, startsWord_map_toLower]

/-- A text that is a word up to case is made of word characters. -/
theorem isWordChar_of_map_toLower {s w : List Char} (h : s.map Char.toLower = w.map Char.toLower)
    (hw : w.all isWordChar = true) : ∀ c ∈ s, isWordChar c = true := by
  intro c hc
  have hlow : c.toLower ∈ w.map Char.toLower := h ▸ List.mem_map_of_mem hc
  obtain ⟨d, hd, heq⟩ := List.mem_map.mp hlow
  rw [← isWordChar_toLower, ← heq, isWordChar_toLower]
  exact List.all_eq_true.mp hw d hd

/-- A word in any case in front of a text that does not extend it. -/
theorem word_append {w : String} {base rest : List Char}
    (hbase : base.map Char.toLower = w.toList.map Char.toLower)
    (hw : w.toList.all isWordChar = true) (hrest : Halts isWordChar rest) :
    lowerWord (base ++ rest) = lowerToken w ∧ (base ++ rest).dropWhile isWordChar = rest := by
  have hchars := isWordChar_of_map_toLower hbase hw
  refine ⟨?_, dropWhile_run hchars hrest⟩
  rw [lowerWord_append hchars hrest, hbase, lowerToken]

/-! ## What is ahead -/

/-- The texts of the token start neither a blank nor a comment. -/
def Lexeme.Proper (t : Lexeme) : Prop :=
  ∀ s, t.Spelled s → ∃ c rest, s = c :: rest ∧ isGapChar c = false ∧ (c = '/' → rest = [])

/-- The text starts with a token and spells `ts`. -/
structure Ahead (ts : List Lexeme) (s : List Char) : Prop where
  spells : Spells ts s
  proper : ∀ t ∈ ts, t.Proper

theorem skipGap_of_head {c : Char} {s : List Char} (hc : isGapChar c = false)
    (hslash : c = '/' → Halts (fun d => d = '/' || d = '*') s) : skipGap (c :: s) = c :: s := by
  rw [skipGap, skipGapFrom, if_neg (by simp [hc])]
  · rintro s' rfl rfl
    exact absurd (hslash rfl '/' rfl) (by decide)
  · rintro s' rfl rfl
    exact absurd (hslash rfl '*' rfl) (by decide)

namespace Ahead

variable {t : Lexeme} {ts : List Lexeme} {s : List Char}

theorem nil_eq (h : Ahead [] s) : s = [] := by
  cases h.spells
  rfl

theorem skipGap_eq (h : Ahead ts s) : skipGap s = s := by
  obtain ⟨hspells, hproper⟩ := h
  cases hspells with
  | nil => rfl
  | cons htoken hgap hsep _ =>
      obtain ⟨c, rest, rfl, hc, hslash⟩ := hproper _ List.mem_cons_self _ htoken
      refine skipGap_of_head hc ?_
      rintro rfl
      obtain rfl := hslash rfl
      exact hsep.slash rfl

/-- The first token and what follows it. -/
theorem first (h : Ahead (t :: ts) s) : ∃ token follow, s = token ++ follow ∧ t.Spelled token
    ∧ token ≠ [] ∧ Separated token follow ∧ Ahead ts (skipGap follow) := by
  obtain ⟨hspells, hproper⟩ := h
  cases hspells with
  | @cons _ _ token gap after htoken hgap hsep hafter =>
      have hahead : Ahead ts after := ⟨hafter, fun t ht => hproper t (List.mem_cons_of_mem _ ht)⟩
      obtain ⟨c, rest, rfl, -, -⟩ := hproper _ List.mem_cons_self _ htoken
      refine ⟨_, gap ++ after, rfl, htoken, List.cons_ne_nil c rest, hsep, ?_⟩
      rw [hgap.skipGap_append, hahead.skipGap_eq]
      exact hahead

end Ahead

/-- A test that no gap passes is decided behind the gap. -/
theorem Halts.of_skipGap {p : Char → Bool} {s : List Char} (h : Halts p (skipGap s))
    (hp : ∀ c, isGapChar c = true ∨ c = '/' → p c = false) : Halts p s := by
  cases s with
  | nil => exact h
  | cons c s =>
      by_cases hgap : isGapChar c = true ∨ c = '/'
      · intro d hd
        obtain rfl := Option.some.inj hd
        exact hp c hgap
      · obtain ⟨hblank, hslash⟩ := not_or.mp hgap
        rw [skipGap_of_head (by simpa using hblank) fun heq => absurd heq hslash] at h
        exact h

/-- The first character of any text that spells `ts` fails `p`. -/
def Ends (p : Char → Bool) (ts : List Lexeme) : Prop :=
  ∀ s, Ahead ts s → Halts p s

namespace Ends

variable {p q : Char → Bool} {t : Lexeme} {ts : List Lexeme}

theorem nil : Ends p [] := by
  intro s h
  rw [h.nil_eq]
  intro c hc
  cases hc

theorem cons (h : ∀ token, t.Spelled token → Halts p token) : Ends p (t :: ts) := by
  intro s hs
  obtain ⟨token, follow, rfl, htoken, hne, -, -⟩ := hs.first
  exact (h token htoken).append fun hnil => absurd hnil hne

theorem text {w : String} (h : Halts p w.toList) : Ends p (.text w :: ts) :=
  cons fun _ htoken => htoken ▸ h

theorem word {w : String} (hp : ∀ c, isWordStart c = true → p c = false)
    (hw : startsWord w.toList = true) : Ends p (.word w :: ts) := by
  refine cons fun token htoken => halts_of_startsWord hp ?_
  exact (startsWord_of_map_toLower htoken).trans hw

theorem mono (h : Ends q ts) (hpq : ∀ c, p c = true → q c = true) : Ends p ts :=
  fun s hs => (h s hs).mono hpq

/-- The character right after the token before `ts` fails `p` as well. -/
theorem follow {s : List Char} (h : Ends p ts) (hs : Ahead ts (skipGap s))
    (hp : ∀ c, isGapChar c = true ∨ c = '/' → p c = false) : Halts p s :=
  (h _ hs).of_skipGap hp

end Ends

/-! ## Reading judgments -/

/-- On `s` the reader reads `a` and takes at least `k` characters; after
a gap, `ts` is ahead. -/
def Reads {α : Type} (k : Nat) (p : Reader α) (a : α) (s : List Char) (ts : List Lexeme) : Prop :=
  ∃ tail, p.read s = some (a, tail) ∧ tail.length + k ≤ s.length ∧ Ahead ts (skipGap tail)

namespace Reads

variable {α β : Type} {p q : Reader α} {a : α} {b : β} {j k : Nat} {s : List Char}
  {ts us : List Lexeme}

theorem pure (h : Ahead ts (skipGap s)) : Reads 0 (pure a) a s ts :=
  ⟨s, rfl, Nat.le_refl _, h⟩

theorem weaken (h : Reads k p a s ts) : Reads 0 p a s ts := by
  obtain ⟨tail, hread, hlen, hahead⟩ := h
  exact ⟨tail, hread, by omega, hahead⟩

/-- What is taken later does not count. -/
theorem bind {f : α → Reader β} (hp : Reads j p a s ts)
    (hf : ∀ tail, tail.length + j ≤ s.length → Ahead ts (skipGap tail) →
      Reads 0 (f a) b tail us) : Reads j (p >>= f) b s us := by
  obtain ⟨mid, hread, hlen, hahead⟩ := hp
  obtain ⟨tail, hread', hlen', hahead'⟩ := hf mid hlen hahead
  refine ⟨tail, ?_, by omega, hahead'⟩
  rw [read_bind, hread]
  exact hread'

/-- A step inside a continuation, where nothing need be taken any more. -/
theorem bind_rest {f : α → Reader β} (hp : Reads j p a s ts)
    (hf : ∀ tail, tail.length + j ≤ s.length → Ahead ts (skipGap tail) →
      Reads 0 (f a) b tail us) : Reads 0 (p >>= f) b s us :=
  (hp.bind hf).weaken

/-- What is taken first does not count. -/
theorem bind_last {f : α → Reader β} (hp : Reads j p a s ts)
    (hf : ∀ tail, tail.length ≤ s.length → Ahead ts (skipGap tail) →
      Reads k (f a) b tail us) : Reads k (p >>= f) b s us := by
  obtain ⟨mid, hread, hlen, hahead⟩ := hp
  obtain ⟨tail, hread', hlen', hahead'⟩ := hf mid (by omega) hahead
  refine ⟨tail, ?_, by omega, hahead'⟩
  rw [read_bind, hread]
  exact hread'

/-- A continuation that reads some value with a property. -/
theorem bind_exists {f : α → Reader β} {P : β → Prop} (hp : Reads j p a s ts)
    (hf : ∀ tail, tail.length + j ≤ s.length → Ahead ts (skipGap tail) →
      ∃ b, P b ∧ Reads 0 (f a) b tail us) :
    ∃ b, P b ∧ Reads j (p >>= f) b s us := by
  obtain ⟨mid, hread, hlen, hahead⟩ := hp
  obtain ⟨b, hb, tail, hread', hlen', hahead'⟩ := hf mid hlen hahead
  refine ⟨b, hb, tail, ?_, by omega, hahead'⟩
  rw [read_bind, hread]
  exact hread'

theorem map {f : α → β} (hp : Reads k p a s ts) :
    Reads k (do return f (← p)) (f a) s ts :=
  hp.bind fun _ _ hahead => .pure hahead

theorem spaced (h : Reads k p a (skipGap s) ts) : Reads k (spaced p) a s ts := by
  obtain ⟨tail, hread, hlen, hahead⟩ := h
  have hskip := skipGap_length_le s
  exact ⟨tail, hread, by omega, hahead⟩

theorem named {symbol : Symbol} (h : Reads k p a s ts) : Reads k (p.named symbol) a s ts := h

theorem delay {p : Unit → Reader α} (h : Reads k (p ()) a s ts) :
    Reads k (Reader.delay p) a s ts := h

theorem orElse_left (h : Reads k p a s ts) : Reads k (p <|> q) a s ts := by
  obtain ⟨tail, hread, hlen, hahead⟩ := h
  exact ⟨tail, by rw [read_orElse, hread]; rfl, hlen, hahead⟩

theorem orElse_right (hp : p.read s = none) (h : Reads k q a s ts) :
    Reads k (p <|> q) a s ts := by
  obtain ⟨tail, hread, hlen, hahead⟩ := h
  exact ⟨tail, by rw [read_orElse, hp, hread]; rfl, hlen, hahead⟩

theorem optional_some (h : Reads k p a s ts) : Reads k p.optional (some a) s ts := by
  obtain ⟨tail, hread, hlen, hahead⟩ := h
  exact ⟨tail, read_optional_some hread, hlen, hahead⟩

theorem optional_none (hp : p.read s = none) (h : Ahead ts (skipGap s)) :
    Reads 0 p.optional none s ts :=
  ⟨s, read_optional_none hp, Nat.le_refl _, h⟩

theorem located (h : Reads k p a s ts) : Reads k p.located (s.length, a) s ts := by
  obtain ⟨tail, hread, hlen, hahead⟩ := h
  exact ⟨tail, by rw [read_located, hread]; rfl, hlen, hahead⟩

theorem ahead_of_read {tail : List Char} {b : α} (h : Reads k p a s ts)
    (hread : p.read s = some (b, tail)) : Ahead ts (skipGap tail) := by
  obtain ⟨tail', hread', -, hahead⟩ := h
  rw [hread'] at hread
  cases hread
  exact hahead

/-- Failure of the first part. -/
theorem bind_eq_none {f : α → Reader β} (h : p.read s = none) : (p >>= f).read s = none := by
  rw [read_bind, h]
  rfl

/-- Failure after the first part. -/
theorem bind_eq_none_of {f : α → Reader β} (hp : Reads k p a s ts)
    (hf : ∀ tail, Ahead ts (skipGap tail) → (f a).read tail = none) :
    (p >>= f).read s = none := by
  obtain ⟨mid, hread, -, hahead⟩ := hp
  rw [read_bind, hread]
  exact hf mid hahead

end Reads

theorem orElse_eq_none {α : Type} {p q : Reader α} {s : List Char} (hp : p.read s = none)
    (hq : q.read s = none) : (p <|> q).read s = none := by
  rw [read_orElse, hp, hq]
  rfl

/-- A token is read whole. -/
theorem Reads.of_append {α : Type} {p : Reader α} {a : α} {ts : List Lexeme}
    {token follow : List Char} (hne : token ≠ []) (hahead : Ahead ts (skipGap follow))
    (hread : p.read (token ++ follow) = some (a, follow)) : Reads 1 p a (token ++ follow) ts := by
  refine ⟨follow, hread, ?_, hahead⟩
  have hpos := List.length_pos_iff.mpr hne
  rw [List.length_append]
  omega

/-- The first token is read whole by a reader that reads its texts. -/
theorem Ahead.reads {α : Type} {p : Reader α} {a : α} {t : Lexeme} {ts : List Lexeme}
    {s : List Char} (h : Ahead (t :: ts) s)
    (hp : ∀ token follow, t.Spelled token → token ≠ [] → Separated token follow →
      Ahead ts (skipGap follow) → p.read (token ++ follow) = some (a, follow)) :
    Reads 1 p a s ts := by
  obtain ⟨token, follow, rfl, htoken, hne, hsep, hahead⟩ := h.first
  exact .of_append hne hahead (hp token follow htoken hne hsep hahead)

/-- A token with one text is read whole by a reader that reads that text. -/
theorem Ahead.reads_text {α : Type} {p : Reader α} {a : α} {w : String} {ts : List Lexeme}
    {s : List Char} (h : Ahead (.text w :: ts) s)
    (hp : ∀ follow, w.toList ≠ [] → Separated w.toList follow → Ahead ts (skipGap follow) →
      p.read (w.toList ++ follow) = some (a, follow)) : Reads 1 p a s ts := by
  refine h.reads fun token follow htoken hne hsep hahead => ?_
  obtain rfl : token = w.toList := htoken
  exact hp follow hne hsep hahead

end EventQuery
