import EventQuery.Proofs.QuantityErrors

/-!
# The tokens of a text

A text that is read as a query consists of the tokens of that query, in
order and with gaps between them (`parse_lexed`). So the order of tokens in
a query is their order in the source.

`Lexed` says it of a stretch of a text. `Lexes` says of a reader that it
goes along the tokens of the value that it reads; its rules follow the
combinators. A rule of the grammar that reads several parts in a row has
read the tokens of some of them at each point, which is what `LexesAfter`
keeps account of.
-/

namespace EventQuery

open Grammar Reader

/-! ## Tokens in a text -/

/-- The tokens stand one after the other at the front of a text, with gaps
before them where one likes; what follows them is `rest`. -/
inductive Lexed : List Lexeme → List Char → List Char → Prop
  | nil {s rest : List Char} (h : skipGap s = skipGap rest) : Lexed [] s rest
  | cons {t : Lexeme} {ts : List Lexeme} {s token after rest : List Char} (htoken : t.Spelled token)
      (hs : skipGap s = token ++ after) (h : Lexed ts after rest) : Lexed (t :: ts) s rest

namespace Lexed

variable {ts us : List Lexeme} {s mid rest : List Char}

/-- Only what follows the first gap matters. -/
theorem of_skipGap_eq {s' : List Char} (h : Lexed ts s rest) (hs : skipGap s' = skipGap s) :
    Lexed ts s' rest := by
  cases h with
  | nil h => exact .nil (hs.trans h)
  | cons htoken hfront h => exact .cons htoken (hs.trans hfront) h

theorem append (h : Lexed ts s mid) (h' : Lexed us mid rest) : Lexed (ts ++ us) s rest := by
  induction h with
  | nil h => exact h'.of_skipGap_eq h
  | cons htoken hs _ ih => exact .cons htoken hs (ih h')

/-- Tokens may be replaced by others with the same texts. -/
theorem imp (h : Lexed ts s rest)
    (hts : List.Forall₂ (fun t u : Lexeme => ∀ token, t.Spelled token → u.Spelled token) ts us) :
    Lexed us s rest := by
  induction h generalizing us with
  | nil h =>
      cases hts
      exact .nil h
  | cons htoken hs _ ih =>
      cases hts with
      | cons ht hts => exact .cons (ht _ htoken) hs (ih hts)

end Lexed

/-! ## Readers that go along tokens -/

namespace Grammar

variable {α β : Type}

/-- After a gap the reader goes along the tokens of the value that it
reads. -/
structure Lexes (p : Reader α) (lex : α → List Lexeme) : Prop where
  lexed : ∀ {s : List Char} {a : α} {rest : List Char}, p.read (skipGap s) = some (a, rest) →
    Lexed (lex a) s rest

/-- The reader goes along those tokens of the value that come after the
tokens `done`. -/
structure LexesAfter (done : List Lexeme) (p : Reader α) (lex : α → List Lexeme) : Prop where
  lexed : ∀ {s : List Char} {a : α} {rest : List Char}, p.read s = some (a, rest) →
    ∃ ts, lex a = done ++ ts ∧ Lexed ts s rest

namespace LexesAfter

variable {done : List Lexeme} {p : Reader α} {lex : α → List Lexeme} {lex' : β → List Lexeme}

theorem pure {a : α} (h : lex a = done) : LexesAfter done (Pure.pure a) lex := by
  refine ⟨fun hread => ?_⟩
  rw [read_pure] at hread
  obtain ⟨rfl, rfl⟩ := Prod.mk.inj (Option.some.inj hread)
  exact ⟨[], by rw [h, List.append_nil], .nil rfl⟩

theorem spaced (h : Lexes p lex) : LexesAfter [] (spaced p) lex :=
  ⟨fun hread => ⟨_, rfl, h.lexed hread⟩⟩

theorem bind {f : α → Reader β} (hp : LexesAfter [] p lex)
    (hf : ∀ a, LexesAfter (done ++ lex a) (f a) lex') : LexesAfter done (p >>= f) lex' := by
  refine ⟨fun hread => ?_⟩
  rw [read_bind, Option.bind_eq_some_iff] at hread
  obtain ⟨⟨a, mid⟩, hpa, hfb⟩ := hread
  obtain ⟨ts, hts, hfirst⟩ := hp.lexed hpa
  obtain ⟨us, hus, hsecond⟩ := (hf a).lexed hfb
  refine ⟨ts ++ us, ?_, hfirst.append hsecond⟩
  rw [hus, hts, List.nil_append, List.append_assoc]

theorem lexes (h : LexesAfter [] p lex) : Lexes p lex := by
  refine ⟨fun hread => ?_⟩
  obtain ⟨ts, hts, hlexed⟩ := h.lexed hread
  rw [hts]
  exact hlexed.of_skipGap_eq (Peg.skipGap_idem _).symm

/-- A part that may be missing. -/
theorem optional (h : LexesAfter [] p lex) :
    LexesAfter [] p.optional fun found => found.toList.flatMap lex := by
  refine ⟨fun {s found rest} hread => ?_⟩
  cases hp : p.read s with
  | none =>
      rw [read_optional_none hp] at hread
      cases hread
      exact ⟨[], rfl, .nil rfl⟩
  | some found =>
      obtain ⟨a, after⟩ := found
      rw [read_optional_some hp] at hread
      cases hread
      obtain ⟨ts, hts, hlexed⟩ := h.lexed hp
      exact ⟨ts, by simpa using hts, hlexed⟩

theorem readMany (h : LexesAfter [] p lex) (n : Nat) : ∀ s,
    Lexed ((Reader.readMany p n s).1.flatMap lex) s (Reader.readMany p n s).2 := by
  induction n with
  | zero => exact fun s => .nil rfl
  | succ n ih =>
      intro s
      rw [Reader.readMany]
      cases hp : p.read s with
      | none => exact .nil rfl
      | some read =>
          obtain ⟨ts, hts, hlexed⟩ := h.lexed hp
          rw [List.nil_append] at hts
          rw [← hts] at hlexed
          exact hlexed.append (ih read.2)

theorem many (h : LexesAfter [] p lex) : LexesAfter [] p.many (List.flatMap lex) := by
  refine ⟨fun {s found rest} hread => ⟨_, rfl, ?_⟩⟩
  have hmany := h.readMany (s.length + 1) s
  rw [Option.some.inj hread] at hmany
  exact hmany

theorem many1 (h : LexesAfter [] p lex) : LexesAfter [] (many1 p p) (List.flatMap lex) := by
  show LexesAfter [] (p >>= fun a => p.many >>= fun as => Pure.pure (a :: as)) _
  exact h.bind fun a => .bind h.many fun as => .pure rfl

end LexesAfter

namespace Lexes

variable {p q : Reader α} {lex : α → List Lexeme} {lex' : β → List Lexeme}

theorem fail : Lexes (fail : Reader α) lex := ⟨fun hread => nomatch hread⟩

theorem named {x : Symbol} (h : Lexes p lex) : Lexes (p.named x) lex := ⟨h.lexed⟩

theorem delay {p : Unit → Reader α} (h : Lexes (p ()) lex) : Lexes (Reader.delay p) lex :=
  ⟨h.lexed⟩

theorem orElse (hp : Lexes p lex) (hq : Lexes q lex) : Lexes (p <|> q) lex := by
  refine ⟨fun hread => ?_⟩
  rw [read_orElse, Option.or_eq_some_iff] at hread
  rcases hread with hpa | ⟨-, hqa⟩
  · exact hp.lexed hpa
  · exact hq.lexed hqa

/-- The first part of a row. -/
theorem bind {f : α → Reader β} (hp : Lexes p lex) (hf : ∀ a, LexesAfter (lex a) (f a) lex') :
    Lexes (p >>= f) lex' := by
  refine ⟨fun hread => ?_⟩
  rw [read_bind, Option.bind_eq_some_iff] at hread
  obtain ⟨⟨a, mid⟩, hpa, hfb⟩ := hread
  obtain ⟨ts, hts, hlexed⟩ := (hf a).lexed hfb
  rw [hts]
  exact (hp.lexed hpa).append hlexed

theorem map {f : α → β} (hp : Lexes p lex) (h : ∀ a, lex' (f a) = lex a) :
    Lexes (p >>= fun a => Pure.pure (f a)) lex' :=
  hp.bind fun a => .pure (h a)

theorem token {x : Symbol} {scan : List Char → Option (α × List Char)} {lexeme : α → Lexeme}
    (h : ∀ {s : List Char} {a : α} {rest : List Char}, scan s = some (a, rest) →
      ∃ text, s = text ++ rest ∧ (lexeme a).Spelled text) :
    Lexes (Reader.token x scan) fun a => [lexeme a] := by
  refine ⟨fun hread => ?_⟩
  obtain ⟨text, hs, hspelled⟩ := h hread
  exact .cons hspelled hs (.nil rfl)

theorem char {c : Char} {w : String} (hw : w.toList = [c]) :
    Lexes (Reader.char c) fun _ => [.text w] := by
  refine ⟨fun hread => ?_⟩
  rw [read_char_eq_some] at hread
  exact .cons hw.symm hread (.nil rfl)

theorem commaSeparated (h : Lexes p lex) :
    Lexes (commaSeparated p) fun as => Lexeme.separated (as.map lex) := by
  have hnext : LexesAfter [] (do spaced (Reader.char ','); spaced p)
      fun a => Lexeme.text "," :: lex a := by
    refine .bind (.spaced (.char (rfl : ",".toList = [',']))) fun _ => ?_
    exact ⟨fun hread => ⟨_, rfl, h.lexed hread⟩⟩
  refine h.bind fun a => .bind hnext.many fun as => .pure ?_
  rw [List.map_cons, Lexeme.separated_cons, List.flatMap_map]

end Lexes

/-! ## What the scanners take -/

theorem scanWord_split {words : List String} {s rest : List Char} {raw : String}
    (h : scanWord words s = some (raw, rest)) : s = raw.toList ++ rest := by
  rw [scanWord] at h
  split at h
  · cases h
    rw [String.toList_ofList, List.takeWhile_append_dropWhile]
  · cases h

theorem scanIdent_split {s rest : List Char} {name : String}
    (h : scanIdent s = some (name, rest)) : s = name.toList ++ rest := by
  rw [scanIdent.eq_def] at h
  split at h
  · cases h
  · split at h
    · cases h
      rw [String.toList_ofList, List.takeWhile_append_dropWhile]
    · cases h

theorem scanTripleBody_split {s token rest : List Char}
    (h : scanTripleBody s = some (token, rest)) : s = token ++ rest := by
  fun_induction scanTripleBody s generalizing token with
  | case1 s =>
      cases h
      rfl
  | case2 c s hopen ih =>
      obtain ⟨⟨body, rest'⟩, hscan, heq⟩ := Option.map_eq_some_iff.mp h
      cases heq
      rw [ih hscan, List.cons_append]
  | case3 => cases h

theorem scanQuotedBody_split {s token rest : List Char}
    (h : scanQuotedBody s = some (token, rest)) : s = token ++ rest := by
  fun_induction scanQuotedBody s generalizing token with
  | case1 s =>
      cases h
      rfl
  | case2 c s ih | case4 c s _ _ _ ih =>
      obtain ⟨⟨body, rest'⟩, hscan, heq⟩ := Option.map_eq_some_iff.mp h
      cases heq
      rw [ih hscan]
      rfl
  | case3 | case5 => cases h

theorem scanString_split {s rest : List Char} {raw : String}
    (h : scanString s = some (raw, rest)) : s = raw.toList ++ rest := by
  have htriple : ∀ {token : List Char}, scanTriple s = some (token, rest) → s = token ++ rest := by
    intro token h
    rw [scanTriple.eq_def] at h
    split at h
    · obtain ⟨⟨body, rest'⟩, hscan, heq⟩ := Option.map_eq_some_iff.mp h
      cases heq
      rw [scanTripleBody_split hscan]
      rfl
    · cases h
  have hquoted : ∀ {token : List Char}, scanQuoted s = some (token, rest) → s = token ++ rest := by
    intro token h
    rw [scanQuoted.eq_def] at h
    split at h
    · obtain ⟨⟨body, rest'⟩, hscan, heq⟩ := Option.map_eq_some_iff.mp h
      cases heq
      rw [scanQuotedBody_split hscan]
      rfl
    · cases h
  rw [scanString] at h
  split at h
  · next hscan =>
      cases h
      rw [String.toList_ofList]
      exact htriple hscan
  · obtain ⟨⟨token, rest'⟩, hscan, heq⟩ := Option.map_eq_some_iff.mp h
    cases heq
    rw [String.toList_ofList]
    exact hquoted hscan

theorem scanCompareOp_split {s rest : List Char} {op : CompareOp}
    (h : scanCompareOp s = some (op, rest)) : s = op.token.toList ++ rest := by
  obtain ⟨found, hfind, heq⟩ := Option.map_eq_some_iff.mp h
  cases heq
  have hfront := List.find?_some hfind
  obtain ⟨tail, rfl⟩ := List.isPrefixOf_iff_prefix.mp hfront
  rw [← String.length_toList, List.drop_left]

/-- The word in front of a text spells every word that it is in lower
case. -/
theorem spelled_of_lowerWord {s : List Char} {w : String} (h : lowerToken w = lowerWord s) :
    (Lexeme.word w).Spelled (s.takeWhile isWordChar) := by
  have hlist := congrArg String.toList h
  rw [lowerToken, lowerWord, String.toList_ofList, String.toList_ofList] at hlist
  exact hlist.symm

theorem takeWhile_split (s : List Char) : s = s.takeWhile isWordChar ++ s.dropWhile isWordChar :=
  List.takeWhile_append_dropWhile.symm

theorem scanLogicOp_split {s rest : List Char} {op : LogicOp}
    (h : scanLogicOp s = some (op, rest)) :
    ∃ text, s = text ++ rest ∧ (Lexeme.word op.token).Spelled text := by
  obtain ⟨found, hfind, heq⟩ := Option.map_eq_some_iff.mp h
  cases heq
  rw [LogicOp.ofToken?] at hfind
  have hname := List.find?_some hfind
  rw [beq_iff_eq, lowerToken_lowerWord] at hname
  refine ⟨_, takeWhile_split s, spelled_of_lowerWord ?_⟩
  rw [← hname]
  cases op <;> rfl

/-- A word and a `~`. -/
theorem spelled_tilde {w v : String} {text : List Char} (h : (Lexeme.word w).Spelled text)
    (hv : v.toList = w.toList ++ ['~']) : (Lexeme.word v).Spelled (text ++ ['~']) := by
  show (text ++ ['~']).map Char.toLower = v.toList.map Char.toLower
  rw [hv, List.map_append, List.map_append]
  exact congrArg (· ++ _) h

theorem scanCallName_split {s rest : List Char} {name : CallName}
    (h : scanCallName s = some (name, rest)) :
    ∃ text, s = text ++ rest ∧ (Lexeme.word name.text).Spelled text := by
  obtain ⟨b, hfind, heq⟩ := Option.map_eq_some_iff.mp h
  rw [Builtin.ofToken?] at hfind
  have hname := List.find?_some hfind
  rw [beq_iff_eq, lowerToken_lowerWord] at hname
  have hspelled := spelled_of_lowerWord hname
  split at heq
  · next tail htail =>
      cases heq
      refine ⟨s.takeWhile isWordChar ++ ['~'], ?_,
        spelled_tilde hspelled (CallName.toList_text b true)⟩
      rw [List.append_assoc, List.singleton_append, ← htail]
      exact takeWhile_split s
  · cases heq
    refine ⟨_, takeWhile_split s, ?_⟩
    rwa [CallName.text, if_neg Bool.false_ne_true, String.append_empty]

/-- The operators of a word, without and with a `~`. -/
theorem lookupOps_of_word : ∀ w ∈ ["like", "regex", "in"], ∃ op op' : LookupOp,
    LookupOp.ofToken? w = some op ∧ op.token = w ∧ lowerToken w = w ∧
      LookupOp.ofToken? (w ++ "~") = some op' ∧ op'.token = w ++ "~" := by
  simp only [List.forall_mem_cons, List.not_mem_nil, false_implies, implies_true, and_true]
  exact ⟨⟨.like, .likeInsensitive, rfl, rfl, rfl, rfl, rfl⟩,
    ⟨.regex, .regexInsensitive, rfl, rfl, rfl, rfl, rfl⟩,
    ⟨.inList, .inListInsensitive, rfl, rfl, rfl, rfl, rfl⟩⟩

theorem scanLookupOp_split {s rest : List Char} {op : LookupOp}
    (h : scanLookupOp s = some (op, rest)) :
    ∃ text, s = text ++ rest ∧ (Lexeme.word op.token).Spelled text := by
  rw [scanLookupOp.eq_def] at h
  split at h
  · cases h
    exact ⟨[':'], rfl, rfl⟩
  · split at h
    · next hmem =>
        obtain ⟨plain, tilded, hplain, hname, hlower, htilded, hname'⟩ :=
          lookupOps_of_word _ (List.contains_iff_mem.mp hmem)
        have hspelled := spelled_of_lowerWord hlower
        split at h
        · next tail htail =>
            split at h
            · rw [htilded] at h
              cases h
              refine ⟨s.takeWhile isWordChar ++ ['~'], ?_, spelled_tilde hspelled ?_⟩
              · rw [List.append_assoc, List.singleton_append, ← htail]
                exact takeWhile_split s
              · rw [hname', String.toList_append]
                rfl
            · cases h
        · rw [hplain] at h
          cases h
          rw [hname]
          exact ⟨_, takeWhile_split s, hspelled⟩
    · cases h

/-! ## Fields, literals and values -/

theorem word_lexes {x : Symbol} {w : String} (hw : lowerToken w = w) :
    Lexes (token x (scanWord [w])) fun _ => [.word w] := by
  refine .token fun {s raw rest} h => ⟨raw.toList, scanWord_split h, ?_⟩
  have hlist := congrArg String.toList ((List.mem_singleton.mp (scanWord_sound h)).trans hw.symm)
  rwa [lowerToken, lowerToken, String.toList_ofList, String.toList_ofList] at hlist

theorem keyword_lexes {x : Symbol} {w : String} (hw : lowerToken w = w) :
    Lexes (keyword x w) fun _ => [.word w] :=
  (word_lexes hw).map fun _ => rfl

/-- A token that stands for itself. -/
theorem text_lexes {x : Symbol} {scan : List Char → Option (String × List Char)}
    (h : ∀ {s raw rest}, scan s = some (raw, rest) → s = raw.toList ++ rest) :
    Lexes (token x scan) fun raw => [.text raw] :=
  .token fun hscan => ⟨_, h hscan, rfl⟩

theorem field_lexes : Lexes field fun f => [f.lexeme] := by
  refine .named ⟨fun {s f rest} hread => ?_⟩
  rw [read_bind, Option.bind_eq_some_iff] at hread
  obtain ⟨⟨marker, mid⟩, hmarker, hread⟩ := hread
  rw [read_bind, Option.bind_eq_some_iff] at hread
  obtain ⟨⟨name, tail⟩, hname, hread⟩ := hread
  obtain ⟨rfl, rfl⟩ := Prod.mk.inj (Option.some.inj hread)
  have hsplit : mid = name.toList ++ tail := scanIdent_split hname
  refine .cons rfl ?_ (.nil rfl)
  cases hscan : scanOptionalMarker (skipGap s) with
  | none =>
      rw [read_optional_none hscan] at hmarker
      cases hmarker
      simpa using hsplit
  | some found =>
      obtain ⟨marker, follow⟩ := found
      rw [read_optional_some hscan] at hmarker
      cases hmarker
      rw [scanOptionalMarker.eq_def] at hscan
      split at hscan
      · next after hfront =>
          cases hscan
          rw [hfront, hsplit]
          simp
      · cases hscan

theorem fieldList_lexes : Lexes fieldList fieldLexemes :=
  .named field_lexes.commaSeparated

theorem string_lexes : Lexes string fun raw => [.text raw] := text_lexes scanString_split

theorem boolean_lexes : Lexes boolean fun raw => [.text raw] := text_lexes scanWord_split

theorem literal_lexes : Lexes literal fun l => [l.lexeme] := by
  have hnumber : Lexes (token .number scanNumber) fun text => [.text (String.ofList text)] :=
    .token fun h => ⟨_, scanNumber_split h, (String.toList_ofList).symm⟩
  refine .named (.orElse (string_lexes.map fun _ => rfl) (.orElse ?_ ?_))
  · exact hnumber.map fun _ => rfl
  · exact boolean_lexes.map fun _ => rfl

/-- Parts in parentheses. -/
theorem grouped_lexes {p : Reader α} {lex : α → List Lexeme} {lex' : β → List Lexeme} {f : α → β}
    (hp : Lexes p lex) (h : ∀ a, lex' (f a) = Lexeme.grouped (lex a)) :
    Lexes (do char '('; let a ← spaced p; spaced (char ')'); return f a) lex' := by
  refine (Lexes.char (rfl : "(".toList = ['('])).bind fun _ => .bind (.spaced hp) fun a => ?_
  refine .bind (.spaced (.char (rfl : ")".toList = [')']))) fun _ => .pure ?_
  rw [h, Lexeme.grouped]
  rfl

theorem literalList_lexes : Lexes literalList fun items => (LookupTarget.list items).lexemes :=
  .named (grouped_lexes literal_lexes.commaSeparated fun _ => rfl)

theorem arithOp_lexes : Lexes arithOp fun op => [.text op.token] := by
  have hsign : ∀ (x : Symbol) (c : Char) (op : ArithOp), op.token.toList = [c] →
      Lexes (sign x c op) fun op => [.text op.token] := by
    intro x c op hc
    have htoken : Lexes (token x (scanSign c)) fun _ => [.text op.token] := by
      refine .token fun {s _ rest} h => ⟨[c], ?_, hc.symm⟩
      rw [scanSign.eq_def] at h
      split at h
      · split at h
        · next heq =>
            cases h
            rw [heq]
            rfl
        · cases h
      · cases h
    exact htoken.map fun _ => rfl
  exact .orElse (hsign _ _ _ rfl) <| .orElse (hsign _ _ _ rfl) <| .orElse (hsign _ _ _ rfl) <|
    .orElse (hsign _ _ _ rfl) (hsign _ _ _ rfl)

theorem callOf_lexes {value : Reader Value} (h : Lexes value Value.lexemes) :
    Lexes (callOf value) fun call => (Value.call call.1 call.2).lexemes := by
  refine .named ((Lexes.token scanCallName_split).bind fun name => ?_)
  refine .bind (.spaced (.char (rfl : "(".toList = ['(']))) fun _ => ?_
  refine .bind (.spaced h.commaSeparated) fun args => ?_
  refine .bind (.spaced (.char (rfl : ")".toList = [')']))) fun _ => .pure ?_
  rw [Value.lexemes, Value.listLexemes_eq_map, Lexeme.grouped]
  simp

theorem valueTerm_lexes {value : Reader Value} (h : Lexes value Value.lexemes) :
    Lexes (valueTerm value) Value.lexemes := by
  refine .orElse ((word_lexes (w := "null") rfl).map fun _ => rfl) <|
    .orElse (literal_lexes.map fun _ => rfl) <| .orElse ((callOf_lexes h).map fun _ => rfl) <|
    .orElse (field_lexes.map fun _ => rfl) <| .named (grouped_lexes h fun _ => rfl)

end Grammar

/-! ## Rows of terms -/

namespace Value

/-- The tokens of a row of operators and terms. -/
def rowLexemes (row : List (ArithOp × Value)) : List Lexeme :=
  row.flatMap fun x => .text x.1.token :: x.2.lexemes

theorem rowLexemes_cons (op : ArithOp) (v : Value) (row : List (ArithOp × Value)) :
    rowLexemes ((op, v) :: row) = .text op.token :: (v.lexemes ++ rowLexemes row) := rfl

theorem lexemes_foldLeft (row : List (ArithOp × Value)) : ∀ first : Value,
    (foldLeft first row).lexemes = first.lexemes ++ rowLexemes row := by
  induction row with
  | nil => exact fun first => (List.append_nil _).symm
  | cons x row ih =>
      obtain ⟨op, v⟩ := x
      intro first
      rw [foldLeft_cons, ih, lexemes, rowLexemes_cons, List.append_assoc, List.cons_append]

/-- Folding the tight operators keeps the tokens. -/
theorem lexemes_foldTight (row : List (ArithOp × Value)) : ∀ first : Value,
    (foldTight first row).1.lexemes ++ rowLexemes (foldTight first row).2 =
      first.lexemes ++ rowLexemes row := by
  induction row with
  | nil => exact fun first => rfl
  | cons x row ih =>
      obtain ⟨op, v⟩ := x
      intro first
      cases hop : op.isTight with
      | true =>
          rw [foldTight_tight hop, ih, lexemes, rowLexemes_cons, List.append_assoc,
            List.cons_append]
      | false => rw [foldTight_loose hop, rowLexemes_cons, ih, rowLexemes_cons]

theorem lexemes_ofRow (first : Value) (row : List (ArithOp × Value)) :
    (ofRow first row).lexemes = first.lexemes ++ rowLexemes row := by
  rw [ofRow, lexemes_foldLeft, lexemes_foldTight]

end Value

namespace Condition

theorem lexemes_negate (c : Condition) : c.negate.lexemes = .word "not" :: c.lexemes := by
  cases c <;> rfl

theorem lexemes_negateTimes (n : Nat) (c : Condition) :
    (c.negateTimes n).lexemes = List.replicate n (.word "not") ++ c.lexemes := by
  induction n with
  | zero => rfl
  | succ n ih => rw [negateTimes, lexemes_negate, ih, List.replicate_succ, List.cons_append]

theorem lexemes_ofRow (row : List (LogicOp × Condition)) : ∀ first : Condition,
    (ofRow first row).lexemes =
      first.lexemes ++ row.flatMap fun x => .word x.1.token :: x.2.lexemes := by
  induction row with
  | nil => exact fun first => (List.append_nil _).symm
  | cons x row ih =>
      intro first
      refine (ih (.logical x.1 first x.2)).trans ?_
      rw [lexemes, List.append_assoc, List.flatMap_cons, List.cons_append]

end Condition

/-! ## Values and conditions -/

namespace Grammar

theorem valueOf_lexes {value : Reader Value} (h : Lexes value Value.lexemes) :
    Lexes (valueOf value) Value.lexemes := by
  have hterm := valueTerm_lexes h
  have hnext : LexesAfter [] (do
      let op ← spaced arithOp
      let v ← spaced (valueTerm value)
      return (op, v)) fun x : ArithOp × Value => .text x.1.token :: x.2.lexemes :=
    .bind (.spaced arithOp_lexes) fun op => .bind (.spaced hterm) fun v => .pure rfl
  exact .named (hterm.bind fun first => .bind hnext.many fun row =>
    .pure (Value.lexemes_ofRow first row))

theorem value_lexes : ∀ depth : Nat, Lexes (value depth) Value.lexemes
  | 0 => .fail
  | depth + 1 => .delay (valueOf_lexes (value_lexes depth))

theorem notOp_lexes : Lexes notOp fun _ => [.word "not"] := keyword_lexes rfl

theorem comparison_lexes {value : Reader Value} (h : Lexes value Value.lexemes) :
    Lexes (comparison value) Condition.lexemes := by
  have hop : Lexes (token .compareOp scanCompareOp) fun op => [.text op.token] :=
    .token fun h => ⟨_, scanCompareOp_split h, rfl⟩
  refine .named (h.bind fun left => .bind (.spaced hop) fun op => .bind (.spaced h) fun right =>
    .pure ?_)
  rw [Condition.lexemes, List.append_assoc]
  rfl

theorem lookupTarget_lexes {value : Reader Value} (h : Lexes value Value.lexemes) :
    Lexes (lookupTarget value) LookupTarget.lexemes :=
  .orElse (literalList_lexes.map fun _ => rfl) (h.map fun _ => rfl)

theorem lookup_lexes {value : Reader Value} (h : Lexes value Value.lexemes) :
    Lexes (lookup value) Condition.lexemes := by
  have hop : Lexes (token .lookupOp scanLookupOp) fun op => [.word op.token] :=
    .token scanLookupOp_split
  have hnot := (LexesAfter.spaced notOp_lexes).optional
  refine .named (field_lexes.bind fun f => .bind hnot fun negation => .bind (.spaced hop) fun op =>
    .bind (.spaced (lookupTarget_lexes h)) fun target => .pure ?_)
  cases negation with
  | none => rfl
  | some _ => rfl

theorem conditionTerm_lexes {value : Reader Value} {condition : Reader Condition}
    (hv : Lexes value Value.lexemes) (hc : Lexes condition Condition.lexemes) :
    Lexes (conditionTerm value condition) Condition.lexemes :=
  .orElse (comparison_lexes hv) <| .orElse (lookup_lexes hv) <|
    .orElse (boolean_lexes.map fun _ => rfl) <| .orElse ((callOf_lexes hv).map fun _ => rfl) <|
    .named (grouped_lexes hc fun _ => rfl)

theorem negatedTerm_lexes {term : Reader Condition} (h : Lexes term Condition.lexemes) :
    Lexes (negatedTerm term) Condition.lexemes := by
  have hnots := (LexesAfter.spaced notOp_lexes).many
  refine LexesAfter.lexes (.bind hnots fun nots => .bind (.spaced h) fun c => .pure ?_)
  rw [Condition.lexemes_negateTimes, List.nil_append]
  congr 1
  induction nots with
  | nil => rfl
  | cons u nots ih => exact congrArg (Lexeme.word "not" :: ·) ih

theorem conditionOf_lexes {value : Reader Value} {condition : Reader Condition}
    (hv : Lexes value Value.lexemes) (hc : Lexes condition Condition.lexemes) :
    Lexes (conditionOf value condition) Condition.lexemes := by
  have hterm := negatedTerm_lexes (conditionTerm_lexes hv hc)
  have hop : Lexes (token .logicOp scanLogicOp) fun op => [.word op.token] :=
    .token scanLogicOp_split
  have hnext : LexesAfter [] (do
      let op ← spaced (token .logicOp scanLogicOp)
      let c ← spaced (negatedTerm (conditionTerm value condition))
      return (op, c)) fun x : LogicOp × Condition => .word x.1.token :: x.2.lexemes :=
    .bind (.spaced hop) fun op => .bind (.spaced hterm) fun c => .pure rfl
  exact .named (hterm.bind fun first => .bind hnext.many fun row =>
    .pure (Condition.lexemes_ofRow row first))

theorem condition_lexes : ∀ depth : Nat, Lexes (condition depth) Condition.lexemes
  | 0 => .fail
  | depth + 1 => .delay (conditionOf_lexes (value_lexes (depth + 1)) (condition_lexes depth))

/-! ## Queries -/

theorem category_lexes : Lexes category fun c => [c.lexeme] :=
  .named <| .orElse ((word_lexes (w := "any") rfl).map fun _ => rfl) <|
    .orElse (string_lexes.map fun _ => rfl) ((text_lexes scanIdent_split).map fun _ => rfl)

theorem Lexes.of_yields {p : Reader α} {P : α → Prop} {lex lex' : α → List Lexeme}
    (h : Lexes p lex) (hp : p.Yields P) (heq : ∀ a, P a → lex a = lex' a) : Lexes p lex' := by
  refine ⟨fun hread => ?_⟩
  rw [← heq _ (hp hread)]
  exact h.lexed hread

/-- A count or a time span as it stands. -/
def SourceToken.lexeme (t : SourceToken) : Lexeme := .text (String.ofList t.text)

theorem sourceToken_lexes {x : Symbol} {scan : List Char → Option (List Char × List Char)}
    (h : ∀ {s text rest}, scan s = some (text, rest) → s = text ++ rest) :
    Lexes (sourceToken x scan) fun t => [t.lexeme] := by
  refine ⟨fun {s t rest} hread => ?_⟩
  rw [sourceToken, read_bind, read_located, Option.bind_eq_some_iff] at hread
  obtain ⟨⟨⟨left, text⟩, tail⟩, hlocated, hread⟩ := hread
  obtain ⟨⟨text', tail'⟩, hscan, heq⟩ := Option.map_eq_some_iff.mp hlocated
  cases heq
  cases hread
  exact .cons (String.toList_ofList).symm (h hscan) (.nil rfl)

theorem sequenceBy_lexes : Lexes sequenceBy keyLexemes := by
  have hby : Lexes sequenceBy fun keys => .word "by" :: fieldLexemes keys := by
    refine .named ((keyword_lexes rfl).bind fun _ => ?_)
    exact ⟨fun hread => ⟨_, rfl, fieldList_lexes.lexed hread⟩⟩
  refine hby.of_yields sequenceBy_yields fun keys hkeys => ?_
  cases keys with
  | nil => exact absurd rfl hkeys.1
  | cons f keys => rfl

theorem optional_keys_lexemes (keys : Option (List Field)) :
    keyLexemes (keys.getD []) = keys.toList.flatMap keyLexemes := by
  cases keys with
  | none => rfl
  | some keys => exact (List.append_nil _).symm

section

variable {condition : Reader Condition} (h : Lexes condition Condition.lexemes)
include h

theorem simpleQuery_lexes : Lexes (simpleQuery condition) SimpleQuery.lexemes := by
  have hfilter : LexesAfter [] (do
      spaced (keyword .kwWhere "where")
      spaced condition) fun c => Lexeme.word "where" :: c.lexemes := by
    refine .bind (.spaced (keyword_lexes rfl)) fun _ => ?_
    exact ⟨fun hread => ⟨_, rfl, h.lexed hread⟩⟩
  exact .named (category_lexes.bind fun c => .bind hfilter.optional fun filter => .pure rfl)

theorem bracketed_lexes : Lexes (bracketed condition) SimpleQuery.bracketed := by
  refine (Lexes.char (rfl : "[".toList = ['['])).bind fun _ => ?_
  refine .bind (.spaced (simpleQuery_lexes h)) fun q => ?_
  exact .bind (.spaced (.char (rfl : "]".toList = [']']))) fun _ => .pure rfl

theorem sequenceStep_lexes : Lexes (sequenceStep condition) SequenceStep.lexemes := by
  refine .named ((bracketed_lexes h).bind fun q => ?_)
  refine .bind (LexesAfter.spaced sequenceBy_lexes).optional fun keys => .pure ?_
  rw [SequenceStep.lexemes, optional_keys_lexemes]

end

end Grammar

/-! ## Counts and time spans

In a text they are tokens that stand for themselves, in a query they are
numbers. -/

/-- The tokens of a time span in a text. -/
def sourceSpan : Option SourceToken → List Lexeme
  | none => []
  | some t => [.word "with", .word "maxspan", .text "=", t.lexeme]

def SequenceQuery.sourceLexemes (q : SequenceQuery SourceToken) : List Lexeme :=
  .word "sequence" :: (keyLexemes q.keys
    ++ (sourceSpan q.maxspan ++ q.steps.flatMap SequenceStep.lexemes))

def Body.sourceLexemes : Body SourceToken → List Lexeme
  | .simple q => q.lexemes
  | .sequence q => q.sourceLexemes
  | .sample q => q.lexemes

def Pipe.sourceLexemes (p : Pipe SourceToken) : List Lexeme :=
  .text "|" :: .word p.name :: match p with
    | .head t | .tail t => [t.lexeme]
    | .count => []
    | .unique fields | .sort fields => fieldLexemes fields
    | .filter condition => condition.lexemes

def Grammar.SourceQuery.lexemes (q : SourceQuery) : List Lexeme :=
  q.body.sourceLexemes ++ q.pipes.flatMap Pipe.sourceLexemes

/-- Tokens with the same texts, or with more. -/
def SpelledAlso (ts us : List Lexeme) : Prop :=
  List.Forall₂ (fun t u : Lexeme => ∀ token, t.Spelled token → u.Spelled token) ts us

theorem SpelledAlso.refl (ts : List Lexeme) : SpelledAlso ts ts :=
  List.forall₂_same.mpr fun _ _ _ h => h

theorem SpelledAlso.append {ts us ts' us' : List Lexeme} (h : SpelledAlso ts us)
    (h' : SpelledAlso ts' us') : SpelledAlso (ts ++ ts') (us ++ us') :=
  List.rel_append h h'

theorem count_spelledAlso {t : SourceToken} {n : Nat} (h : Quantity.ofToken? t.text = some n) :
    SpelledAlso [t.lexeme] [.count n] := by
  refine .cons (fun token htoken => ?_) .nil
  obtain rfl : token = t.text := htoken.trans String.toList_ofList
  obtain ⟨⟨hrun, -⟩, hvalue⟩ := quantity_eq_some_iff.mp h
  exact ⟨hrun, hvalue⟩

theorem interval_spelledAlso {t : SourceToken} {i : Interval}
    (h : Interval.ofToken? t.text = some i) : SpelledAlso [t.lexeme] [.interval i] := by
  refine .cons (fun token htoken => ?_) .nil
  obtain rfl : token = t.text := htoken.trans String.toList_ofList
  simp only [Interval.ofToken?, bind, pure, Option.bind_eq_some_iff, Option.some.injEq,
    quantity_eq_some_iff, ofSuffix?_eq_some_iff] at h
  obtain ⟨n, ⟨⟨hrun, -⟩, rfl⟩, u, hu, -, -, rfl⟩ := h
  refine ⟨t.text.takeWhile Char.isDigit, ?_, hrun, rfl⟩
  rw [hu, String.toList_ofList, List.takeWhile_append_dropWhile]

theorem bodyOfSource_spelledAlso {b : Body SourceToken} {b' : Body Interval}
    (h : bodyOfSource b = some b') : SpelledAlso b.sourceLexemes b'.lexemes := by
  unfold bodyOfSource at h
  split at h
  · cases h
    exact .refl _
  · cases h
    exact .refl _
  · cases h
    exact .refl _
  · next keys t steps =>
      obtain ⟨i, hi, rfl⟩ := Option.map_eq_some_iff.mp h
      have hspan : SpelledAlso (sourceSpan (some t)) (spanLexemes (some i)) :=
        (SpelledAlso.refl [.word "with", .word "maxspan", .text "="]).append
          (interval_spelledAlso hi)
      exact (SpelledAlso.refl [.word "sequence"]).append
        ((SpelledAlso.refl (keyLexemes keys)).append (hspan.append (.refl _)))

theorem pipeOfSource_spelledAlso {p : Pipe SourceToken} {p' : Pipe Nat}
    (h : pipeOfSource p = some p') : SpelledAlso p.sourceLexemes p'.lexemes := by
  cases p with
  | head t =>
      obtain ⟨n, hn, rfl⟩ := Option.map_eq_some_iff.mp h
      exact (SpelledAlso.refl [.text "|", .word "head"]).append (count_spelledAlso hn)
  | tail t =>
      obtain ⟨n, hn, rfl⟩ := Option.map_eq_some_iff.mp h
      exact (SpelledAlso.refl [.text "|", .word "tail"]).append (count_spelledAlso hn)
  | _ =>
      cases h
      exact .refl _

theorem pipesOfSource_spelledAlso : ∀ {ps : List (Pipe SourceToken)} {ps' : List (Pipe Nat)},
    ps.mapM pipeOfSource = some ps' →
      SpelledAlso (ps.flatMap Pipe.sourceLexemes) (ps'.flatMap Pipe.lexemes)
  | [], _, h => by
      cases h
      exact .nil
  | p :: ps, _, h => by
      simp only [List.mapM_cons, bind, pure, Option.bind_eq_some_iff, Option.some.injEq] at h
      obtain ⟨p', hp, ps', hps, rfl⟩ := h
      exact (pipeOfSource_spelledAlso hp).append (pipesOfSource_spelledAlso hps)

theorem finish?_spelledAlso {source : SourceQuery} {q : Query} (h : source.finish? = some q) :
    SpelledAlso source.lexemes q.lexemes := by
  simp only [SourceQuery.finish?, bind, pure, Option.bind_eq_some_iff, Option.some.injEq] at h
  obtain ⟨body, hbody, pipes, hpipes, rfl⟩ := h
  exact (bodyOfSource_spelledAlso hbody).append (pipesOfSource_spelledAlso hpipes)

/-! ## Whole texts -/

namespace Grammar

theorem maxspan_lexes : Lexes maxspan fun t => sourceSpan (some t) := by
  refine .named ((keyword_lexes rfl).bind fun _ => .bind (.spaced (keyword_lexes rfl)) fun _ => ?_)
  refine .bind (.spaced (.char (rfl : "=".toList = ['=']))) fun _ => ?_
  exact ⟨fun hread => ⟨_, rfl, (sourceToken_lexes scanInterval_split).lexed hread⟩⟩

section

variable {condition : Reader Condition} (h : Lexes condition Condition.lexemes)
include h

theorem sequenceQuery_lexes :
    Lexes (sequenceQuery condition) SequenceQuery.sourceLexemes := by
  refine .named ((keyword_lexes rfl).bind fun _ => ?_)
  refine .bind (LexesAfter.spaced sequenceBy_lexes).optional fun keys => ?_
  refine .bind (LexesAfter.spaced maxspan_lexes).optional fun span => ?_
  refine .bind (LexesAfter.spaced (sequenceStep_lexes h)).many1 fun steps => .pure ?_
  have hspan : sourceSpan span = span.toList.flatMap fun t => sourceSpan (some t) := by
    cases span <;> rfl
  rw [SequenceQuery.sourceLexemes, optional_keys_lexemes, hspan]
  simp

theorem sampleQuery_lexes : Lexes (sampleQuery condition) SampleQuery.lexemes := by
  refine .named ((keyword_lexes rfl).bind fun _ => .bind (.spaced (keyword_lexes rfl)) fun _ => ?_)
  refine .bind (.spaced fieldList_lexes) fun keys => ?_
  have hstep : Lexes (sampleStep condition) SimpleQuery.bracketed := .named (bracketed_lexes h)
  refine .bind (LexesAfter.spaced hstep).many1 fun steps => .pure ?_
  rw [SampleQuery.lexemes]
  simp

theorem body_lexes : Lexes (body condition) Body.sourceLexemes :=
  .orElse ((sequenceQuery_lexes h).map fun _ => rfl) <|
    .orElse ((sampleQuery_lexes h).map fun _ => rfl) ((simpleQuery_lexes h).map fun _ => rfl)

theorem pipe_lexes : Lexes (pipe condition) Pipe.sourceLexemes := by
  have hcount : Lexes count fun t => [t.lexeme] := sourceToken_lexes scanNumber_split
  -- the tokens of a pipe after its bar
  have hpipes : Lexes (headPipe <|> tailPipe <|> countPipe <|> uniquePipe <|>
      filterPipe condition <|> sortPipe) fun p => p.sourceLexemes.tail := by
    refine .orElse (.named ((keyword_lexes rfl).bind fun _ => ?_)) <|
      .orElse (.named ((keyword_lexes rfl).bind fun _ => ?_)) <|
      .orElse (.named ((keyword_lexes rfl).bind fun _ => ?_)) <|
      .orElse (.named ((keyword_lexes rfl).bind fun _ => ?_)) <|
      .orElse (.named ((keyword_lexes rfl).bind fun _ => ?_))
        (.named ((keyword_lexes rfl).bind fun _ => ?_))
    · exact .bind (.spaced hcount) fun _ => .pure rfl
    · exact .bind (.spaced hcount) fun _ => .pure rfl
    · exact .pure rfl
    · exact .bind (.spaced fieldList_lexes) fun _ => .pure rfl
    · exact .bind (.spaced h) fun _ => .pure rfl
    · exact .bind (.spaced fieldList_lexes) fun _ => .pure rfl
  refine .named ((Lexes.char (rfl : "|".toList = ['|'])).bind fun _ => ?_)
  exact ⟨fun hread => ⟨_, rfl, hpipes.lexed hread⟩⟩

theorem queryOf_lexed {s rest : List Char} {source : SourceQuery}
    (hread : (queryOf condition).read s = some (source, rest)) :
    ∃ after, Lexed source.lexemes s after ∧ skipGap after = [] := by
  rw [queryOf, read_named, read_bind, Option.bind_eq_some_iff] at hread
  obtain ⟨⟨b, mid⟩, hbody, hread⟩ := hread
  rw [read_bind, Option.bind_eq_some_iff] at hread
  obtain ⟨⟨pipes, after⟩, hpipes, hread⟩ := hread
  rw [read_bind, Option.bind_eq_some_iff] at hread
  obtain ⟨⟨_, tail⟩, hend, hread⟩ := hread
  cases hread
  obtain ⟨ts, hts, hlexed⟩ := (LexesAfter.spaced (pipe_lexes h)).many.lexed hpipes
  refine ⟨after, ?_, ?_⟩
  · rw [SourceQuery.lexemes, hts]
    exact ((body_lexes h).lexed hbody).append hlexed
  · change (if (skipGap after).isEmpty then some ((), []) else none) = _ at hend
    split at hend
    · next hnil => exact List.isEmpty_iff.mp hnil
    · cases hend

end

end Grammar

/-- **Reading is sound.** A text that is read as a query consists of the
tokens of the query, in order, and gaps. -/
theorem parse_lexed {text : String} {q : Query} (h : parse text = .ok q) :
    ∃ rest, Lexed q.lexemes text.toList rest ∧ skipGap rest = [] := by
  obtain ⟨source, tail, hsource, hfinish⟩ := Query.ofChars_eq_ok_iff.mp (ofText_of_parse h)
  obtain ⟨rest, hlexed, hrest⟩ := queryOf_lexed (condition_lexes _) hsource
  exact ⟨rest, hlexed.imp (finish?_spelledAlso hfinish), hrest⟩

end EventQuery
