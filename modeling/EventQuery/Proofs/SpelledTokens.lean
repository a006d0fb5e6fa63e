import EventQuery.Proofs.ReadingAhead

/-!
# Reading spelled tokens

One lemma per kind of token: the reader of the token reads it from every
spelling of it. Where the token could go on, what follows must not go on
with it (`Ends`), or the spelling already keeps them apart (`Separated`).
-/

namespace EventQuery

open Grammar Reader

/-! ## Words, signs and operators -/

section Words

variable {w : String} {ts : List Lexeme} {s : List Char}

/-- What follows a token of word characters is no word character. -/
theorem Separated.halts {token follow : List Char} (h : Separated token follow)
    (hne : token ≠ []) (hw : ∀ c ∈ token, isWordChar c = true) : Halts isWordChar follow :=
  h.word _ (List.getLast?_eq_some_getLast hne) (by simp [hw _ (List.getLast_mem hne)])

/-- The word ahead: a text in any case that ends where it should. -/
theorem Ahead.word (h : Ahead (.word w :: ts) s) (hw : w.toList.all isWordChar = true) :
    ∃ token follow, s = token ++ follow ∧ token ≠ []
      ∧ String.ofList (token.map Char.toLower) = lowerToken w
      ∧ (∀ c ∈ token, isWordChar c = true) ∧ Halts isWordChar follow
      ∧ Ahead ts (skipGap follow) := by
  obtain ⟨token, follow, rfl, htoken, hne, hsep, hahead⟩ := h.first
  have hchars := isWordChar_of_map_toLower htoken hw
  refine ⟨token, follow, rfl, hne, ?_, hchars, hsep.halts hne hchars, hahead⟩
  rw [lowerToken]
  exact congrArg String.ofList htoken

theorem Ahead.lowerWord_word (h : Ahead (.word w :: ts) s) (hw : w.toList.all isWordChar = true) :
    lowerWord s = lowerToken w := by
  obtain ⟨token, follow, rfl, -, hlow, hchars, hhalts, -⟩ := h.word hw
  rw [lowerWord_append hchars hhalts, hlow]

theorem scanWord_reads {symbol : Symbol} {words : List String} (h : Ahead (.word w :: ts) s)
    (hw : w.toList.all isWordChar = true) (hmem : lowerToken w ∈ words) :
    ∃ raw, Reads 1 (token symbol (scanWord words)) raw s ts := by
  obtain ⟨token, follow, rfl, hne, hlow, hchars, hhalts, hahead⟩ := h.word hw
  exact ⟨String.ofList token, .of_append hne hahead (scanWord_append (hlow ▸ hmem) hchars hhalts)⟩

theorem keyword_reads {symbol : Symbol} (h : Ahead (.word w :: ts) s)
    (hw : w.toList.all isWordChar = true) (hlow : lowerToken w = w) :
    Reads 1 (keyword symbol w) () s ts := by
  obtain ⟨raw, hraw⟩ := scanWord_reads h hw (by simp [hlow] : lowerToken w ∈ [w])
  unfold keyword
  exact hraw.bind fun _ _ hahead => .pure hahead

theorem keyword_eq_none {symbol : Symbol} (h : lowerWord s ≠ w) :
    (keyword symbol w).read s = none :=
  Reads.bind_eq_none (scanWord_eq_none (by simpa using h))

theorem char_reads {c : Char} (h : Ahead (.text w :: ts) s) (hw : w.toList = [c]) :
    Reads 1 (char c) () s ts := by
  refine h.reads_text fun follow _ _ _ => ?_
  rw [hw]
  exact read_char_self c follow

theorem Ahead.head_text (h : Ahead (.text w :: ts) s) : s.head? = w.toList.head? := by
  obtain ⟨token, follow, rfl, htoken, hne, -, -⟩ := h.first
  obtain rfl : token = w.toList := htoken
  exact List.head?_append_of_ne_nil _ hne

theorem Ahead.startsWord_text (h : Ahead (.text w :: ts) s) :
    startsWord s = startsWord w.toList := by
  rw [startsWord, h.head_text, startsWord]

/-- A part between two signs. -/
theorem enclosed_reads {α β : Type} {p : Reader α} {f : α → β} {a : α} {part : List Lexeme}
    {l r : String} {opening closing : Char} (hl : l.toList = [opening]) (hr : r.toList = [closing])
    (h : Ahead (.text l :: (part ++ .text r :: ts)) s)
    (hp : ∀ inner, inner.length < s.length → Ahead (part ++ .text r :: ts) inner →
      Reads 1 p a inner (.text r :: ts)) :
    Reads 1 (do
      char opening
      let a ← spaced p
      spaced (char closing)
      return f a) (f a) s ts := by
  refine (char_reads h hl).bind fun s₁ h₁ hpart => ?_
  have hskip := skipGap_length_le s₁
  refine (hp _ (by omega) hpart).spaced.bind_rest fun s₂ _ hclose => ?_
  exact (Reads.spaced (char_reads hclose hr)).bind_rest fun s₃ _ hafter => .pure hafter

theorem arithOp_reads {op : ArithOp} (h : Ahead (.text op.token :: ts) s) :
    Reads 1 arithOp op s ts := by
  refine h.reads_text fun follow _ _ _ => ?_
  cases op <;> rfl

/-- A test that gaps fail. -/
theorem gap_ne {d : Char} (hd : isGapChar d = false) (hslash : d ≠ '/') :
    ∀ c, isGapChar c = true ∨ c = '/' → decide (c = d) = false := by
  rintro c (hc | rfl)
  · refine decide_eq_false ?_
    rintro rfl
    rw [hc] at hd
    cases hd
  · exact decide_eq_false hslash.symm

theorem compareOp_reads {op : CompareOp} (h : Ahead (.text op.token :: ts) s)
    (hend : Ends (· = '=') ts) : Reads 1 (token .compareOp scanCompareOp) op s ts := by
  refine h.reads_text fun follow _ _ hahead => ?_
  have hnext := (hend.follow hahead (gap_ne rfl (by decide))).head_ne
  cases follow with
  | nil => cases op <;> rfl
  | cons c follow =>
      have hne : ¬ '=' = c := fun heq => hnext (by rw [heq]; rfl)
      cases op <;> simp [scanCompareOp, CompareOp.all, CompareOp.token, hne] <;> rfl

theorem logicOp_reads {op : LogicOp} (h : Ahead (.word op.token :: ts) s) :
    Reads 1 (token .logicOp scanLogicOp) op s ts := by
  obtain ⟨token, follow, rfl, hne, hlow, hchars, hhalts, hahead⟩ := h.word (by cases op <;> rfl)
  refine .of_append hne hahead ?_
  rw [read_token, scanLogicOp, lowerWord_append hchars hhalts, hlow, dropWhile_run hchars hhalts]
  cases op <;> rfl

theorem halts_tilde (s : List Char) : Halts isWordChar ('~' :: s) := by
  intro c hc
  obtain rfl := Option.some.inj hc
  rfl

/-- A sign at the end of a word has no case. -/
theorem exists_of_map_toLower_append {token w : List Char} {d : Char} (hup : d.toLower = d)
    (hlow : d.isLower = false) (h : token.map Char.toLower = (w ++ [d]).map Char.toLower) :
    ∃ base, token = base ++ [d] ∧ base.map Char.toLower = w.map Char.toLower := by
  rw [List.map_append, List.map_eq_append_iff] at h
  obtain ⟨base, last, rfl, hbase, hlast⟩ := h
  refine ⟨base, ?_, hbase⟩
  cases last with
  | nil => cases hlast
  | cons c last =>
      simp only [List.map_cons, List.map_nil, List.cons.injEq, List.map_eq_nil_iff, hup] at hlast
      rw [hlast.2, eq_of_toLower_eq hlast.1 hlow]

theorem Builtin.isWordChar_name (b : Builtin) : b.name.toList.all isWordChar = true := by
  cases b <;> rfl

theorem Builtin.startsWord_name (b : Builtin) : startsWord b.name.toList = true := by
  cases b <;> rfl

theorem Builtin.ofToken?_lower_name (b : Builtin) :
    Builtin.ofToken? (lowerToken b.name) = some b := by
  cases b <;> rfl

theorem CallName.toList_text (b : Builtin) (insensitive : Bool) :
    (CallName.mk b insensitive).text.toList
      = b.name.toList ++ if insensitive then ['~'] else [] := by
  cases insensitive <;> simp [CallName.text]

theorem callName_reads {name : CallName} (h : Ahead (.word name.text :: ts) s)
    (hend : Ends (· = '~') ts) : Reads 1 (token .callName scanCallName) name s ts := by
  refine h.reads fun token follow htoken hne hsep hahead => ?_
  obtain ⟨b, insensitive⟩ := name
  rw [Lexeme.Spelled, CallName.toList_text] at htoken
  rw [read_token, scanCallName]
  cases insensitive with
  | false =>
      have hbase : token.map Char.toLower = b.name.toList.map Char.toLower := by
        simpa using htoken
      have hhalts := hsep.halts hne (isWordChar_of_map_toLower hbase b.isWordChar_name)
      have hnext := (hend.follow hahead (gap_ne rfl (by decide))).head_ne
      obtain ⟨hlow, hdrop⟩ := word_append hbase b.isWordChar_name hhalts
      rw [hlow, b.ofToken?_lower_name, hdrop, Option.map_some]
      split
      · exact absurd rfl hnext
      · rfl
  | true =>
      obtain ⟨base, rfl, hbase⟩ := exists_of_map_toLower_append rfl rfl htoken
      obtain ⟨hlow, hdrop⟩ := word_append hbase b.isWordChar_name (halts_tilde follow)
      rw [List.append_assoc, List.singleton_append, hlow, b.ofToken?_lower_name, hdrop]
      rfl

/-- The words of the lookup operators. -/
def lookupWords : List String := ["like", "regex", "in"]

theorem lookupWords_spec {w : String} (h : w ∈ lookupWords) :
    w.toList.all isWordChar = true ∧ lowerToken w = w ∧ startsWord w.toList = true := by
  simp only [lookupWords, List.mem_cons, List.not_mem_nil, or_false] at h
  rcases h with rfl | rfl | rfl <;> exact ⟨rfl, rfl, rfl⟩

section LookupOp

variable {op : LookupOp} {base rest : List Char} (hmem : w ∈ lookupWords)
  (hbase : base.map Char.toLower = w.toList.map Char.toLower)

include hmem hbase

theorem startsWord_lookup : startsWord base = true := by
  obtain ⟨-, -, hstart⟩ := lookupWords_spec hmem
  rw [startsWord_of_map_toLower hbase, hstart]

theorem scanLookupOp_word (hrest : Halts isWordChar rest) (hnext : rest.head? ≠ some '~')
    (hop : LookupOp.ofToken? w = some op) : scanLookupOp (base ++ rest) = some (op, rest) := by
  obtain ⟨hall, hlower, -⟩ := lookupWords_spec hmem
  obtain ⟨hlow, hdrop⟩ := word_append hbase hall hrest
  rw [hlower] at hlow
  have hstart := startsWord_append (startsWord_lookup hmem hbase) rest
  have hcontains : ["like", "regex", "in"].contains w = true := List.contains_iff_mem.mpr hmem
  unfold scanLookupOp
  split
  · next heq => rw [heq] at hstart; cases hstart
  · rw [hlow, if_pos hcontains, hdrop]
    split
    · exact absurd rfl hnext
    · rw [hop]; rfl

theorem scanLookupOp_tilde (hrest : Halts isWordChar rest)
    (hop : LookupOp.ofToken? (w ++ "~") = some op) :
    scanLookupOp (base ++ '~' :: rest) = some (op, rest) := by
  obtain ⟨hall, hlower, -⟩ := lookupWords_spec hmem
  obtain ⟨hlow, hdrop⟩ := word_append hbase hall (halts_tilde rest)
  rw [hlower] at hlow
  have hstart := startsWord_append (startsWord_lookup hmem hbase) ('~' :: rest)
  have hcontains : ["like", "regex", "in"].contains w = true := List.contains_iff_mem.mpr hmem
  unfold scanLookupOp
  split
  · next heq => rw [heq] at hstart; cases hstart
  · rw [hlow, if_pos hcontains, hdrop]
    simp only [wordEnds_iff.mpr hrest, if_true, hop, Option.map_some]

end LookupOp

theorem colon_spelled {token : List Char} (h : (Lexeme.word ":").Spelled token) :
    token = [':'] := by
  have hcolon : token.map Char.toLower = ([] ++ [':']).map Char.toLower := h
  obtain ⟨base, rfl, hbase⟩ := exists_of_map_toLower_append rfl rfl hcolon
  rw [List.map_eq_nil_iff.mp hbase]
  rfl

theorem scanLookupOp_eq_none (hcolon : s.head? ≠ some ':') (hword : lowerWord s ∉ lookupWords) :
    scanLookupOp s = none := by
  unfold scanLookupOp
  split
  · exact absurd rfl hcolon
  · rw [if_neg (by simpa [lookupWords] using hword)]

theorem lookupOp_reads {op : LookupOp} (h : Ahead (.word op.token :: ts) s)
    (hend : Ends (· = '~') ts) : Reads 1 (token .lookupOp scanLookupOp) op s ts := by
  obtain ⟨token, follow, rfl, htoken, hne, hsep, hahead⟩ := h.first
  have hnext := (hend.follow hahead (gap_ne rfl (by decide))).head_ne
  have hread : scanLookupOp (token ++ follow) = some (op, follow) := by
    have hplain : ∀ {w : String}, w ∈ lookupWords →
        token.map Char.toLower = w.toList.map Char.toLower → LookupOp.ofToken? w = some op →
        scanLookupOp (token ++ follow) = some (op, follow) := by
      intro w hmem hbase hop
      have hchars := isWordChar_of_map_toLower hbase (lookupWords_spec hmem).1
      exact scanLookupOp_word hmem hbase (hsep.halts hne hchars) hnext hop
    have htilde : ∀ {w : String}, w ∈ lookupWords →
        token.map Char.toLower = (w.toList ++ ['~']).map Char.toLower →
        LookupOp.ofToken? (w ++ "~") = some op →
        scanLookupOp (token ++ follow) = some (op, follow) := by
      intro w hmem htoken hop
      obtain ⟨base, rfl, hbase⟩ := exists_of_map_toLower_append rfl rfl htoken
      rw [List.append_assoc, List.singleton_append]
      exact scanLookupOp_tilde hmem hbase (hsep.word '~' (by simp) rfl) hop
    cases op with
    | colon =>
        rw [colon_spelled htoken]
        rfl
    | like => exact hplain (by decide) htoken rfl
    | regex => exact hplain (by decide) htoken rfl
    | inList => exact hplain (by decide) htoken rfl
    | likeInsensitive => exact htilde (by decide : "like" ∈ lookupWords) htoken rfl
    | regexInsensitive => exact htilde (by decide : "regex" ∈ lookupWords) htoken rfl
    | inListInsensitive => exact htilde (by decide : "in" ∈ lookupWords) htoken rfl
  exact .of_append hne hahead hread

end Words

/-! ## Fields and literals -/

section Terms

variable {ts : List Lexeme} {s : List Char}

/-- What would make more of a term: a parenthesis makes a call of a
field, a quote goes on with a string, a tilde with a function name. -/
def continuesTerm (c : Char) : Bool := c = '(' || c = '"' || c = '~'

theorem continuesTerm_gap : ∀ c, isGapChar c = true ∨ c = '/' → continuesTerm c = false := by
  rintro c (hc | rfl)
  · simp only [isGapChar, Bool.or_eq_true, decide_eq_true_eq] at hc
    rcases hc with ((rfl | rfl) | rfl) | rfl <;> rfl
  · rfl

theorem IsIdent.startsWord {name : String} (h : IsIdent name) :
    startsWord name.toList = true := by
  have hword := h.word
  cases hs : name.toList with
  | nil => rw [hs] at hword; cases hword
  | cons c s => rw [hs] at hword; exact hword.1

theorem IsIdent.ne_nil {name : String} (h : IsIdent name) : name.toList ≠ [] :=
  startsWord_ne_nil h.startsWord

theorem ident_reads {name : String} (hname : IsIdent name) (h : Ahead (.text name :: ts) s) :
    Reads 1 (token .ident scanIdent) name s ts := by
  refine h.reads_text fun follow _ hsep _ => ?_
  exact scanIdent_append hname (hsep.halts hname.ne_nil hname.word.isWordChar)

theorem scanOptionalMarker_eq_none (h : s.head? ≠ some '?') : scanOptionalMarker s = none := by
  unfold scanOptionalMarker
  split
  · exact absurd rfl h
  · rfl

theorem field_reads {f : Field} (hf : f.WellFormed) (h : Ahead (f.lexeme :: ts) s) :
    Reads 1 field f s ts := by
  refine h.reads_text fun follow _ hsep _ => ?_
  obtain ⟨name, optional⟩ := f
  have hname : IsIdent name := hf
  cases optional with
  | false =>
      have hlist : ((if false = true then "?" else "") ++ name).toList = name.toList := by simp
      rw [hlist] at hsep ⊢
      have hmark : (name.toList ++ follow).head? ≠ some '?' :=
        head_ne_of_startsWord (startsWord_append hname.startsWord follow) rfl
      have hident := scanIdent_append hname (hsep.halts hname.ne_nil hname.word.isWordChar)
      simp [field, read_optional_none, scanOptionalMarker_eq_none hmark, hident]
  | true =>
      have hlist : ((if true = true then "?" else "") ++ name).toList = '?' :: name.toList := by
        simp
      rw [hlist] at hsep ⊢
      have hhalts : Halts isWordChar follow := by
        refine hsep.word _ (List.getLast?_eq_some_getLast (List.cons_ne_nil _ _)) ?_
        rw [List.getLast_cons hname.ne_nil]
        simp [hname.word.isWordChar _ (List.getLast_mem hname.ne_nil)]
      have hmark : (token .optionalMarker scanOptionalMarker).read
          ('?' :: (name.toList ++ follow)) = some ((), name.toList ++ follow) := rfl
      simp [field, read_optional_some hmark, scanIdent_append hname hhalts]

theorem scanString_eq_none (h : s.head? ≠ some '"') : scanString s = none := by
  have htriple : scanTriple s = none := by
    unfold scanTriple
    split
    · exact absurd rfl h
    · rfl
  have hquoted : scanQuoted s = none := by
    unfold scanQuoted
    split
    · exact absurd rfl h
    · rfl
  simp [scanString, htriple, hquoted]

theorem scanNumber_eq_none (h : Halts (fun c => c.isDigit || c = '-') s) :
    scanNumber s = none := by
  have hminus : scanMinus s = ([], s) := by
    unfold scanMinus
    split
    · exact absurd (h '-' rfl) (by decide)
    · rfl
  have hdigits : Digits.scan s = none := scanDigits_eq_none (h.mono fun c hc => by simp [hc])
  simp [scanNumber, hminus, hdigits]

theorem IsStringToken.head {token : List Char} (h : IsStringToken token) :
    ∃ rest, token = '"' :: rest := by
  cases h with
  | triple _ => exact ⟨_, rfl⟩
  | quoted _ => exact ⟨_, rfl⟩

/-- A number token starts with a digit or a sign. -/
theorem IsNumberToken.head {token : List Char} (h : IsNumberToken token) :
    ∃ c rest, token = c :: rest ∧ (c.isDigit = true ∨ c = '-') := by
  obtain ⟨minus, digits, fraction, exponent, rfl, hminus, hdigits, -, -⟩ := h
  obtain ⟨d, ds, rfl, hd⟩ := exists_digit_of_isRun hdigits
  rcases hminus with rfl | rfl
  · exact ⟨d, _, rfl, .inl hd⟩
  · exact ⟨'-', _, rfl, .inr rfl⟩

/-- The last character of a text, if there is one, is a word character. -/
def EndsWord (s : List Char) : Prop := ∀ c ∈ s.getLast?, isWordChar c = true

theorem EndsWord.append {s t : List Char} (hs : EndsWord s) (ht : EndsWord t) :
    EndsWord (s ++ t) := by
  intro c hc
  rw [List.getLast?_append, Option.mem_def, Option.or_eq_some_iff] at hc
  rcases hc with hc | ⟨-, hc⟩
  · exact ht c hc
  · exact hs c hc

theorem endsWord_run {digits : List Char} (h : Digits.isRun digits = true) (s : List Char) :
    EndsWord (s ++ digits) := by
  obtain ⟨hne, hall⟩ := isRun_iff.mp h
  intro c hc
  rw [List.getLast?_append_of_ne_nil _ hne] at hc
  exact isWordChar_of_isDigit c (hall c (List.mem_of_getLast? hc))

theorem IsNumberToken.endsWord {token : List Char} (h : IsNumberToken token) :
    EndsWord token := by
  obtain ⟨minus, digits, fraction, exponent, rfl, -, hdigits, hfraction, hexponent⟩ := h
  refine ((endsWord_run hdigits minus).append ?_).append ?_
  · rcases hfraction with rfl | ⟨ds, rfl, hds⟩
    · intro c hc; cases hc
    · exact endsWord_run hds ['.']
  · rcases hexponent with rfl | ⟨mark, sign, ds, rfl, -, -, hds⟩
    · intro c hc; cases hc
    · exact endsWord_run hds (mark :: sign)

theorem EndsWord.halts {token follow : List Char} (h : EndsWord token) (hne : token ≠ [])
    (hsep : Separated token follow) : Halts isWordChar follow := by
  have hlast := List.getLast?_eq_some_getLast hne
  exact hsep.word _ hlast (by simp [h _ hlast])

theorem IsBooleanToken.map_toLower {raw : String} (h : IsBooleanToken raw) :
    ∃ w ∈ ["true", "false"], raw.toList.map Char.toLower = w.toList.map Char.toLower := by
  have hlist : ∀ {w : String}, lowerToken raw = w → raw.toList.map Char.toLower = w.toList := by
    rintro w rfl
    simp [lowerToken]
  rcases h with h | h
  · exact ⟨"true", by simp, hlist h⟩
  · exact ⟨"false", by simp, hlist h⟩

theorem IsBooleanToken.isWordChar {raw : String} (h : IsBooleanToken raw) :
    ∀ c ∈ raw.toList, isWordChar c = true := by
  obtain ⟨w, hmem, hmap⟩ := h.map_toLower
  refine isWordChar_of_map_toLower hmap ?_
  simp only [List.mem_cons, List.not_mem_nil, or_false] at hmem
  rcases hmem with rfl | rfl <;> rfl

theorem IsBooleanToken.startsWord {raw : String} (h : IsBooleanToken raw) :
    startsWord raw.toList = true := by
  obtain ⟨w, hmem, hmap⟩ := h.map_toLower
  rw [startsWord_of_map_toLower hmap]
  simp only [List.mem_cons, List.not_mem_nil, or_false] at hmem
  rcases hmem with rfl | rfl <;> rfl

theorem isWordStart_not_digit {c : Char} (h : isWordStart c = true) :
    (c.isDigit || c = '-') = false := by
  rw [Bool.eq_false_iff, ne_eq, Bool.or_eq_true, decide_eq_true_eq]
  rintro (hd | rfl)
  · simp only [isWordStart, isAlpha_iff, isUpper_iff, isLower_iff, Char.isDigit, Bool.or_eq_true,
      Bool.and_eq_true, decide_eq_true_eq, UInt32.le_iff_toNat_le, ge_iff_le] at h hd
    have h9 : '9'.val.toNat = 57 := rfl
    rcases h with (((h | h) | rfl) | rfl)
    · omega
    · omega
    · exact absurd hd (by decide)
    · exact absurd hd (by decide)
  · cases h

theorem halts_digit_of_startsWord (h : startsWord s = true) :
    Halts (fun c => c.isDigit || c = '-') s :=
  halts_of_startsWord (fun _ => isWordStart_not_digit) h

theorem IsStringToken.startsWord {token : List Char} (h : IsStringToken token) :
    startsWord token = false := by
  obtain ⟨rest, rfl⟩ := h.head
  rfl

theorem IsNumberToken.startsWord {token : List Char} (h : IsNumberToken token) :
    startsWord token = false := by
  obtain ⟨c, rest, rfl, hc⟩ := h.head
  refine Bool.eq_false_iff.mpr fun hstart => ?_
  have hfalse := isWordStart_not_digit hstart
  rw [Bool.or_eq_false_iff, decide_eq_false_iff_not] at hfalse
  rcases hc with hc | hc
  · rw [hc] at hfalse
    cases hfalse.1
  · exact hfalse.2 hc

theorem boolean_reads {raw : String} (hraw : IsBooleanToken raw) (h : Ahead (.text raw :: ts) s) :
    Reads 1 boolean raw s ts := by
  refine h.reads_text fun follow hne hsep _ => ?_
  have hhalts := hsep.halts hne hraw.isWordChar
  have hmem : String.ofList (raw.toList.map Char.toLower) ∈ ["true", "false"] := by
    simpa [IsBooleanToken, lowerToken] using hraw
  have hscan := scanWord_append hmem hraw.isWordChar hhalts
  rw [String.ofList_toList] at hscan
  rw [boolean, read_token, hscan]

theorem string_reads {raw : String} (hraw : IsStringToken raw.toList)
    (h : Ahead (.text raw :: ts) s) (hend : Ends continuesTerm ts) : Reads 1 string raw s ts := by
  refine h.reads_text fun follow _ _ hahead => ?_
  have hquote : Halts continuesTerm follow := hend.follow hahead continuesTerm_gap
  have hnext : follow.head? ≠ some '"' :=
    (hquote.mono fun c hc => by simp_all [continuesTerm]).head_ne
  rw [string, read_token, scanString_append hraw hnext, String.ofList_toList]

theorem literal_reads {l : Literal} (hl : l.WellFormed) (h : Ahead (l.lexeme :: ts) s)
    (hend : Ends continuesTerm ts) : Reads 1 literal l s ts := by
  refine .named ?_
  cases l with
  | string raw => exact .orElse_left (.map (string_reads hl h hend))
  | number raw =>
      have hnumber : IsNumberToken raw.toList := hl
      obtain ⟨c, rest, hraw, hc⟩ := hnumber.head
      have hquote : Halts (· = '"') raw.toList := by
        intro d hd
        rw [hraw] at hd
        obtain rfl := Option.some.inj hd
        rcases hc with hc | rfl
        · refine decide_eq_false ?_
          rintro rfl
          cases hc
        · rfl
      have hstring := scanString_eq_none (Ends.text hquote s h).head_ne
      refine .orElse_right (Reads.bind_eq_none hstring) (.orElse_left ?_)
      have hread : Reads 1 (token .number scanNumber) raw.toList s ts := by
        refine h.reads_text fun follow hne hsep _ => ?_
        exact scanNumber_append hnumber (hnumber.endsWord.halts hne hsep)
      simpa using hread.map (f := fun token => Literal.number (String.ofList token))
  | boolean raw =>
      have hstart : startsWord raw.toList = true := hl.startsWord
      have hquote : Halts (· = '"') raw.toList := halts_of_startsWord (word_ne rfl) hstart
      have hstring := scanString_eq_none (Ends.text hquote s h).head_ne
      have hnumber := scanNumber_eq_none (Ends.text (halts_digit_of_startsWord hstart) s h)
      exact .orElse_right (Reads.bind_eq_none hstring)
        (.orElse_right (Reads.bind_eq_none hnumber) (.map (boolean_reads hl h)))

/-! ## Counts and intervals -/

theorem isNumberToken_run {digits : List Char} (h : Digits.isRun digits = true) :
    IsNumberToken digits :=
  ⟨[], digits, [], [], by simp, .inl rfl, h, .inl rfl, .inl rfl⟩

theorem sourceToken_reads {t : Lexeme} {symbol : Symbol}
    {scan : List Char → Option (List Char × List Char)} {P : List Char → Prop}
    (h : Ahead (t :: ts) s) (hscan : ∀ token follow, t.Spelled token → Separated token follow →
      scan (token ++ follow) = some (token, follow) ∧ P token) :
    ∃ found : SourceToken, P found.text ∧ Reads 1 (sourceToken symbol scan) found s ts := by
  obtain ⟨token, follow, rfl, htoken, hne, hsep, hahead⟩ := h.first
  obtain ⟨hread, hP⟩ := hscan token follow htoken hsep
  have hreads : Reads 1 (Reader.token symbol scan) token (token ++ follow) ts :=
    .of_append hne hahead hread
  unfold sourceToken
  exact ⟨⟨_, token⟩, hP, hreads.located.bind fun _ _ htail => .pure htail⟩

theorem count_reads {n : Nat} (hn : n < Quantity.limit) (h : Ahead (.count n :: ts) s) :
    ∃ found, Quantity.ofToken? found.text = some n ∧ Reads 1 count found s ts := by
  refine sourceToken_reads (P := fun text => Quantity.ofToken? text = some n) h
    fun token follow htoken hsep => ?_
  obtain ⟨hrun, hvalue⟩ := htoken
  have hnumber := isNumberToken_run hrun
  have hne := (isRun_iff.mp hrun).1
  refine ⟨scanNumber_append hnumber (hnumber.endsWord.halts hne hsep), ?_⟩
  rw [Quantity.ofToken?, hvalue, if_pos ⟨hrun, hn⟩]

theorem IntervalUnit.ofSuffix?_suffix (u : IntervalUnit) :
    IntervalUnit.ofSuffix? u.suffix = some u := by
  cases u <;> rfl

theorem IntervalUnit.endsWord_suffix (u : IntervalUnit) : EndsWord u.suffix.toList := by
  intro c hc
  cases u <;> (obtain rfl := Option.some.inj hc; rfl)

theorem intervalOfToken {digits : List Char} {i : Interval} (hrun : Digits.isRun digits = true)
    (hvalue : Digits.value digits = i.value) (hi : i.millis?.isSome) :
    Interval.ofToken? (digits ++ i.unit.suffix.toList) = some i := by
  have hdigits := (isRun_iff.mp hrun).2
  have hhalts : Halts Char.isDigit i.unit.suffix.toList := by
    simpa using halts_isDigit_suffix i.unit []
  obtain ⟨total, htotal⟩ := Option.isSome_iff_exists.mp hi
  have hlimit : i.value < Quantity.limit := by
    simp only [Interval.millis?] at hi
    split at hi
    · next hlt =>
        have hfactor : 0 < i.unit.factor := by cases i.unit <;> decide
        exact Nat.lt_of_le_of_lt (Nat.le_mul_of_pos_right _ hfactor) hlt
    · cases hi
  simp [Interval.ofToken?, takeWhile_run hdigits hhalts, dropWhile_run hdigits hhalts,
    Quantity.ofToken?, hrun, hvalue, hlimit, IntervalUnit.ofSuffix?_suffix, htotal]

theorem interval_reads {i : Interval} (hi : i.millis?.isSome) (h : Ahead (.interval i :: ts) s) :
    ∃ found, Interval.ofToken? found.text = some i
      ∧ Reads 1 (sourceToken .interval scanInterval) found s ts := by
  refine sourceToken_reads (P := fun text => Interval.ofToken? text = some i) h
    fun token follow htoken hsep => ?_
  obtain ⟨digits, rfl, hrun, hvalue⟩ := htoken
  have hne : digits ++ i.unit.suffix.toList ≠ [] := by simp [(isRun_iff.mp hrun).1]
  have hhalts := ((endsWord_run hrun []).append i.unit.endsWord_suffix).halts hne hsep
  exact ⟨scanInterval_append hrun hhalts, intervalOfToken hrun hvalue hi⟩

end Terms

end EventQuery
