import EventQuery.Proofs.Contexts
import EventQuery.Proofs.FilterStages
import EventQuery.Proofs.SqlReading

/-!
# String literals

A text goes through three notations on its way into a clause: the string
token of the query language, the text that this token stands for, and the
string of SQL. Every text has a token in single quotes on each side, with
escapes, and most have one in three quotes, without. Both are read as one
token, stand for the text, and leave the clause with a string that SQL reads
as the text (`stringLiteral_faithful`).

The value of a token is defined for all texts, also for those that are no
string tokens. `Literal.strictValue?` has none of these ways out; on the
tokens of the language the two agree.
-/

namespace EventQuery

open Grammar

namespace Literal

/-! ## Tokens of a text -/

/-- How a character is written in a quoted string. -/
def escapeChar : Char → List Char
  | '\\' => ['\\', '\\']
  | '"' => ['\\', '"']
  | '\n' => ['\\', 'n']
  | '\t' => ['\\', 't']
  | '\r' => ['\\', 'r']
  | c => [c]

/-- The string tokens that are written for a text. -/
inductive Writes (s : List Char) : List Char → Prop
  | quoted : Writes s ('"' :: s.flatMap escapeChar ++ ['"'])
  | triple (hinside : ¬ threeQuotes <:+: s) (hlast : s.getLast? ≠ some '"') :
      Writes s (threeQuotes ++ s ++ threeQuotes)

theorem quotedBody_escapeChar (c : Char) {s : List Char} (h : QuotedBody s) :
    QuotedBody (escapeChar c ++ s) := by
  unfold escapeChar
  split
  case h_6 hbackslash hquote _ _ _ => exact .plain hquote hbackslash h
  all_goals exact .pair _ h

theorem quotedBody_escaped (s : List Char) : QuotedBody (s.flatMap escapeChar) := by
  induction s with
  | nil => exact .nil
  | cons c s ih => exact quotedBody_escapeChar c ih

/-- Without three quotes inside and a quote at the end, the first three quotes
in a row are the closing ones. -/
theorem tripleBody_of_no_quotes {s : List Char} (hinside : ¬ threeQuotes <:+: s)
    (hlast : s.getLast? ≠ some '"') : TripleBody s := by
  have hend : ∀ front, ¬ (front ++ ['"'] <:+ s) := by
    rintro front ⟨before, rfl⟩
    exact hlast (by simp)
  -- three quotes in a row that are not inside would end in one of the last two
  have hquotes : threeQuotes = ['"', '"'] ++ ['"'] := rfl
  have hsplit : s ++ ['"', '"'] = s ++ ['"'] ++ ['"'] := by simp
  rw [TripleBody, hsplit, List.infix_concat_iff, List.infix_concat_iff, hquotes]
  rintro (hsuffix | hsuffix | hin)
  · have hcut : ['"'] ++ ['"'] <:+ s ++ ['"'] :=
      ((List.suffix_append_inj_of_length_eq rfl).mp hsuffix).1
    exact hend [] ((List.suffix_append_inj_of_length_eq rfl).mp hcut).1
  · exact hend ['"'] ((List.suffix_append_inj_of_length_eq rfl).mp hsuffix).1
  · exact hinside hin

theorem Writes.isStringToken {s token : List Char} (h : Writes s token) : IsStringToken token := by
  cases h with
  | quoted => exact .quoted (quotedBody_escaped s)
  | triple hinside hlast => exact .triple (tripleBody_of_no_quotes hinside hlast)

/-! ## Values of tokens -/

theorem betweenTriple?_triple (body : List Char) :
    betweenTriple? (threeQuotes ++ body ++ threeQuotes) = some body := by
  have hlength : (threeQuotes ++ body ++ threeQuotes).length = body.length + 6 := by
    simp [threeQuotes]
  have hfront : tripleQuote.isPrefixOf (threeQuotes ++ body ++ threeQuotes) = true :=
    List.isPrefixOf_iff_prefix.mpr ⟨body ++ threeQuotes, by simp [threeQuotes, tripleQuote]⟩
  have hback : tripleQuote.isSuffixOf (threeQuotes ++ body ++ threeQuotes) = true :=
    List.isSuffixOf_iff_suffix.mpr ⟨threeQuotes ++ body, rfl⟩
  rw [betweenTriple?, if_pos ⟨by omega, hfront, hback⟩, hlength]
  simp [threeQuotes]

/-- A quoted string never starts with three quotes. -/
theorem betweenTriple?_quoted {body : List Char} (h : QuotedBody body) :
    betweenTriple? ('"' :: body ++ ['"']) = none := by
  refine if_neg ?_
  rintro ⟨hlength, hfront, -⟩
  obtain ⟨tail, htail⟩ := List.isPrefixOf_iff_prefix.mp hfront
  cases h with
  | nil => simp at hlength
  | pair c h => simp [tripleQuote] at htail
  | plain hq hb h => exact hq (List.cons.inj (List.cons.inj htail).2).1.symm

theorem betweenQuotes?_quoted (body : List Char) :
    betweenQuotes? ('"' :: body ++ ['"']) = some body := by
  simp [betweenQuotes?]

theorem unescape_escapeChar (c : Char) (s : List Char) :
    unescape (escapeChar c ++ s) = c :: unescape s := by
  unfold escapeChar
  split
  case h_6 hbackslash _ _ _ _ =>
    rw [List.singleton_append, unescape]
    all_goals
      intros
      contradiction
  all_goals rfl

/-- A pair is resolved on its own. -/
theorem unescape_pair (c : Char) (s : List Char) :
    unescape ('\\' :: c :: s) = unescape ['\\', c] ++ unescape s := by
  by_cases hpair : c ∈ ['"', '\\', 'n', 't', 'r']
  · simp only [List.mem_cons, List.not_mem_nil, or_false] at hpair
    rcases hpair with rfl | rfl | rfl | rfl | rfl <;> rfl
  · simp only [List.mem_cons, List.not_mem_nil, or_false, not_or] at hpair
    obtain ⟨hquote, hbackslash, hn, ht, hr⟩ := hpair
    have hother : ∀ s, unescape ('\\' :: c :: s) = '\\' :: c :: unescape s := by
      intro s
      rw [unescape] <;> intros <;> contradiction
    rw [hother, hother]
    rfl

theorem unescape_escaped (s : List Char) : unescape (s.flatMap escapeChar) = s := by
  induction s with
  | nil => rfl
  | cons c s ih => rw [List.flatMap_cons, unescape_escapeChar, ih]

theorem Writes.stringValue {s token : List Char} (h : Writes s token) :
    stringValue token = s := by
  unfold Literal.stringValue
  cases h with
  | quoted =>
      rw [betweenTriple?_quoted (quotedBody_escaped s), betweenQuotes?_quoted]
      exact unescape_escaped s
  | triple hinside hlast => rw [betweenTriple?_triple]

/-! ## No way out is taken -/

/-- Resolve escapes; a backslash at the end is an error. -/
def unescape? : List Char → Option (List Char)
  | '\\' :: c :: s => (unescape? s).map (unescape ['\\', c] ++ ·)
  | ['\\'] => none
  | c :: s => (unescape? s).map (c :: ·)
  | [] => some []

/-- The text that a string token stands for; a text without its quotes, or
with a backslash before the last one, is an error. -/
def strictValue? (token : List Char) : Option (List Char) :=
  match betweenTriple? token with
  | some inner => some inner
  | none => (betweenQuotes? token).bind unescape?

theorem unescape?_eq {body : List Char} (h : QuotedBody body) :
    unescape? body = some (unescape body) := by
  induction h with
  | nil => rfl
  | pair c h ih =>
      rw [unescape?, ih, Option.map_some, ← unescape_pair]
  | @plain c s hq hb h ih =>
      have hvalue : unescape (c :: s) = c :: unescape s := by
        rw [unescape] <;> intros <;> contradiction
      have hstrict : unescape? (c :: s) = (unescape? s).map (c :: ·) := by
        rw [unescape?] <;> intros <;> contradiction
      rw [hvalue, hstrict, ih]
      rfl

theorem strictValue?_eq {token : List Char} (h : IsStringToken token) :
    strictValue? token = some (stringValue token) := by
  unfold strictValue? stringValue
  cases h with
  | @triple body _ => rw [betweenTriple?_triple]
  | quoted hbody =>
      rw [betweenTriple?_quoted hbody, betweenQuotes?_quoted]
      exact unescape?_eq hbody

end Literal

theorem scanTriple_sound {s token rest : List Char} (h : scanTriple s = some (token, rest)) :
    ∃ body, token = threeQuotes ++ body ++ threeQuotes := by
  rw [scanTriple.eq_def] at h
  split at h
  · obtain ⟨⟨token', rest'⟩, hbody, heq⟩ := Option.map_eq_some_iff.mp h
    obtain ⟨rfl, -⟩ := Prod.mk.inj heq
    obtain ⟨body, rfl, -, -⟩ := scanTripleBody_sound hbody
    exact ⟨body, rfl⟩
  · cases h

theorem scanQuoted_sound {s token rest : List Char} (h : scanQuoted s = some (token, rest)) :
    ∃ body, token = '"' :: body ++ ['"'] ∧ QuotedBody body := by
  rw [scanQuoted.eq_def] at h
  split at h
  · obtain ⟨⟨token', rest'⟩, hbody, heq⟩ := Option.map_eq_some_iff.mp h
    obtain ⟨rfl, -⟩ := Prod.mk.inj heq
    obtain ⟨body, rfl, hquoted⟩ := scanQuotedBody_sound hbody
    exact ⟨body, rfl, hquoted⟩
  · cases h

/-- A token is taken as it stands between its quotes iff it was scanned as one
in three quotes. -/
theorem betweenTriple?_isSome_iff {text rest : List Char} {token : String}
    (h : scanString text = some (token, rest)) :
    (Literal.betweenTriple? token.toList).isSome ↔ (scanTriple text).isSome := by
  rw [scanString] at h
  split at h
  · next raw rest' htriple =>
      obtain ⟨rfl, rfl⟩ := Prod.mk.inj (Option.some.inj h)
      obtain ⟨body, rfl⟩ := scanTriple_sound htriple
      rw [String.toList_ofList, Literal.betweenTriple?_triple, htriple]
      exact Iff.rfl
  · next htriple =>
      obtain ⟨⟨raw, rest'⟩, hquoted, heq⟩ := Option.map_eq_some_iff.mp h
      obtain ⟨rfl, rfl⟩ := Prod.mk.inj heq
      obtain ⟨body, rfl, hbody⟩ := scanQuoted_sound hquoted
      rw [String.toList_ofList, Literal.betweenTriple?_quoted hbody, htriple]
      exact Iff.rfl

/-! ## Strings of SQL -/

/-- The text that a string of SQL stands for. -/
def Sql.stringValue? : List Char → Option (List Char)
  | '\'' :: s =>
    match readQuoted s with
    | some (body, []) => some body
    | _ => none
  | _ => none

theorem Sql.stringValue?_quote (s : String) : stringValue? (quote s).toList = some s.toList := by
  have hquote : (quote s).toList = '\'' :: (s.toList.flatMap escapeChar ++ ['\'']) := by
    simp [quote]
  rw [hquote, stringValue?, readQuoted_escaped]

/-! ## From a query to its clause -/

theorem separated_nil (token : List Char) : Separated token [] where
  word _ _ _ c hc := by cases hc
  slash _ c hc := by cases hc

section Equation

variable {f : String} {token : List Char} (hf : IsIdent f) (h : IsStringToken token)
include hf h

theorem parse_equation : parse ("any where " ++ f ++ " == " ++ String.ofList token) =
    .ok ⟨.simple ⟨.any, some (.comparison .eq (.field ⟨f, false⟩)
      (.literal (.string (String.ofList token))))⟩, []⟩ := by
  have hwf : Query.WellFormed ⟨.simple ⟨.any, some (.comparison .eq (.field ⟨f, false⟩)
      (.literal (.string (String.ofList token))))⟩, []⟩ := by
    refine ⟨⟨trivial, fun c hc => ?_⟩, List.forall_mem_nil _⟩
    obtain rfl := Option.some.inj hc
    have hstring : IsStringToken (String.ofList token).toList := by rwa [String.toList_ofList]
    exact ⟨hf, hstring⟩
  have hspace : IsGap [' '] := .blank rfl .nil
  have hname : (Field.mk f false).lexeme.Spelled f.toList := by simp [Field.lexeme, Lexeme.Spelled]
  have hspells : Spells [.word "any", .word "where", (Field.mk f false).lexeme, .text "==",
      .text (String.ofList token)]
      ("any".toList ++ ([' '] ++ ("where".toList ++ ([' '] ++ (f.toList ++ ([' '] ++
        ("==".toList ++ ([' '] ++ (token ++ ([] ++ [])))))))))) :=
    .cons rfl hspace (separated_blank _ _) <| .cons rfl hspace (separated_blank _ _) <|
    .cons hname hspace (separated_blank _ _) <| .cons rfl hspace (separated_blank _ _) <|
    .cons String.toList_ofList.symm .nil (separated_nil _) .nil
  unfold parse Query.ofText
  rw [ofChars_of_spelledBy hwf ⟨[], _, ?_, .nil, hspells⟩]
  simp

theorem ofText_equation :
    Filter.ofText {} ("any where " ++ f ++ " == " ++ String.ofList token) =
      .ok ⟨"(" ++ f ++ " = " ++ Sql.quote (Literal.evalString (String.ofList token)) ++ ")",
        [], []⟩ := by
  rw [Filter.ofText_of_parse (parse_equation hf h) rfl]
  have hsql : ∀ e : Expr,
      (Expr.binary "=" (.symbol f) e).sql = "(" ++ f ++ " = " ++ e.sql ++ ")" := by
    intro e
    show "(" ++ f ++ " " ++ "=" ++ " " ++ e.sql ++ ")" = _
    simp only [String.append_assoc]
    rfl
  exact congrArg (fun sql => (.ok ⟨sql, [], []⟩ : Except Failure Filter)) (hsql (.string _))

end Equation

/-- **String literals are faithful.** Each token that is written for a text is
read as one string token, wherever in a query a literal may stand; it stands
for the text; and in a comparison with a field it becomes a string of SQL
that stands for the text. Conversely, the value of a token that was read is
always the one that the rules of strings give it, and it is taken without
escapes iff the token was read as one in three quotes. -/
theorem stringLiteral_faithful :
    (∀ s token, Literal.Writes s token →
      (∀ rest, rest.head? ≠ some '"' →
        scanString (token ++ rest) = some (String.ofList token, rest)) ∧
      (∀ (Q : Query.Context) l text text', parse text = .ok (Q.fill l) →
        (Q.fill (.string (String.ofList token))).SpelledBy text'.toList →
        parse text' = .ok (Q.fill (.string (String.ofList token)))) ∧
      Literal.evalString (String.ofList token) = String.ofList s ∧
      ∀ f, IsIdent f → ∃ literal : String, Sql.stringValue? literal.toList = some s ∧
        Filter.ofText {} ("any where " ++ f ++ " == " ++ String.ofList token) =
          .ok ⟨"(" ++ f ++ " = " ++ literal ++ ")", [], []⟩) ∧
    ∀ text token rest, scanString text = some (token, rest) →
      Literal.strictValue? token.toList = some (Literal.evalString token).toList ∧
      ((Literal.betweenTriple? token.toList).isSome ↔ (scanTriple text).isSome) := by
  refine ⟨fun s token hwrites => ?_, fun text token rest hscan => ?_⟩
  · have htoken := hwrites.isStringToken
    have hvalue : Literal.evalString (String.ofList token) = String.ofList s := by
      rw [Literal.evalString, String.toList_ofList, hwrites.stringValue]
    refine ⟨fun rest => scanString_append htoken, fun Q l text text' hparse hspelled => ?_, hvalue,
      fun f hf => ⟨_, ?_, ofText_equation hf htoken⟩⟩
    · have hliteral : (Literal.string (String.ofList token)).WellFormed := by
        rwa [Literal.WellFormed, String.toList_ofList]
      exact Query.Context.parse_fill hparse hliteral hspelled
    · rw [hvalue, Sql.stringValue?_quote, String.toList_ofList]
  · refine ⟨?_, betweenTriple?_isSome_iff hscan⟩
    rw [Literal.strictValue?_eq (scanString_sound hscan), Literal.evalString, String.toList_ofList]

/-- A quote, a backslash and a line end in a list of a pipe, and four quotes
that open a string of which the last one is the first character. -/
theorem stringLiteral_faithful_quotes :
    let s := ['"', '\\', '\n']
    let raw := "\"\\\"\\\\\\n\""
    let Q : Query.Context :=
      .filter (.simple ⟨.any, none⟩) [] (.listItem ⟨"a", false⟩ false .inList [] []) []
    Literal.Writes s raw.toList ∧ parse "any | filter a in (1)" = .ok (Q.fill (.number "1")) ∧
      (∃ text, parse text = .ok (Q.fill (.string raw))) ∧ Literal.evalString raw = String.ofList s ∧
      scanString "\"\"\"\"a\"\"\" or b".toList = some ("\"\"\"\"a\"\"\"", " or b".toList) ∧
      Literal.strictValue? "\"\"\"\"a\"\"\"".toList = some ['"', 'a'] := by
  intro s raw Q
  have hraw : raw.toList = '"' :: s.flatMap Literal.escapeChar ++ ['"'] := by decide
  have hwrites : Literal.Writes s raw.toList := hraw ▸ .quoted
  have hparse : parse "any | filter a in (1)" = .ok (Q.fill (.number "1")) :=
    parse_of_finish rfl rfl
  have hscan : scanString "\"\"\"\"a\"\"\" or b".toList =
      some ("\"\"\"\"a\"\"\"", " or b".toList) := rfl
  obtain ⟨-, hplace, hvalue, -⟩ := stringLiteral_faithful.1 s raw.toList hwrites
  rw [String.ofList_toList] at hplace hvalue
  obtain ⟨text, htext⟩ := (Q.fill (.string raw)).exists_spelledBy
  refine ⟨hwrites, hparse, ⟨String.ofList text, hplace Q _ _ _ hparse ?_⟩, hvalue, hscan,
    (stringLiteral_faithful.2 _ _ _ hscan).1⟩
  rwa [String.toList_ofList]

end EventQuery
