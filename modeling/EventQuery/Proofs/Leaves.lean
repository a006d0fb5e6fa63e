import EventQuery.Proofs.FailureClassification
import EventQuery.Proofs.SourceTokens
import EventQuery.Proofs.Symbols

/-!
# The leaves of an expression

Lowering a query loses and reorders nothing: the symbols of the expression
are the fields of the query, its constants are the values of the literals of
the query, both in the order of the source, and a test of the category comes
last (`lower_leaves`).

Which tokens of a query are literals is read off the tokens alone
(`Lexeme.literal?`), with no look at the tree, so that no literal can be
missed by a walk of the tree.
-/

namespace EventQuery

open Grammar

/-! ## Literals among tokens -/

/-- The literal that a token is, by its first characters: a string starts
with a quote, a number with a digit or with a minus and a digit, and a
boolean is one of two words. -/
def Literal.ofToken? (raw : String) : Option Literal :=
  match raw.toList with
  | '"' :: _ => some (.string raw)
  | '-' :: c :: _ => if c.isDigit then some (.number raw) else none
  | c :: _ =>
    if c.isDigit then some (.number raw)
    else if lowerToken raw ∈ ["true", "false"] then some (.boolean raw)
    else none
  | [] => none

def Lexeme.literal? : Lexeme → Option Literal
  | .text raw => Literal.ofToken? raw
  | _ => none

/-- The value of a literal token. -/
def Literal.const? : Literal → Option Const
  | .string raw => some (.string (evalString raw))
  | .number raw => evalNumber? raw
  | .boolean raw => some (.bool (evalBoolean raw))

/-- The values of the literals among some tokens. -/
def Lexeme.consts (ts : List Lexeme) : List (Option Const) :=
  (ts.filterMap literal?).map Literal.const?

namespace Lexeme

@[simp] theorem consts_nil : consts [] = [] := rfl

@[simp] theorem consts_append (ts us : List Lexeme) :
    consts (ts ++ us) = consts ts ++ consts us := by
  rw [consts, List.filterMap_append, List.map_append, consts, consts]

theorem consts_cons_none {t : Lexeme} (h : t.literal? = none) (ts : List Lexeme) :
    consts (t :: ts) = consts ts := by
  rw [consts, List.filterMap_cons_none h, consts]

theorem consts_cons_some {t : Lexeme} {l : Literal} (h : t.literal? = some l) (ts : List Lexeme) :
    consts (t :: ts) = l.const? :: consts ts := by
  rw [consts, List.filterMap_cons_some h, List.map_cons, consts]

@[simp] theorem consts_word (w : String) (ts : List Lexeme) : consts (.word w :: ts) = consts ts :=
  consts_cons_none rfl ts

theorem consts_grouped (ts : List Lexeme) : consts (grouped ts) = consts ts := by
  rw [grouped, consts_cons_none (by decide), consts_append, consts_cons_none (by decide),
    consts_nil, List.append_nil]

theorem consts_separated (parts : List (List Lexeme)) :
    consts (separated parts) = parts.flatMap consts := by
  cases parts with
  | nil => rfl
  | cons part parts =>
      rw [separated_cons, consts_append, List.flatMap_cons]
      congr 1
      induction parts with
      | nil => rfl
      | cons next parts ih =>
          rw [List.flatMap_cons, List.cons_append, consts_cons_none (by decide), consts_append, ih,
            List.flatMap_cons]

end Lexeme

/-- Of the words only the booleans are literals. -/
theorem Literal.ofToken?_of_startsWord {raw : String} (hstart : startsWord raw.toList = true) :
    ofToken? raw = if lowerToken raw ∈ ["true", "false"] then some (.boolean raw) else none := by
  unfold ofToken?
  split
  · next heq => rw [heq] at hstart; cases hstart
  · next heq => rw [heq] at hstart; cases hstart
  · next heq =>
      rw [heq] at hstart
      have hdigit := (Bool.or_eq_false_iff.mp (isWordStart_not_digit hstart)).1
      rw [hdigit, if_neg Bool.false_ne_true]
  · next heq => rw [heq] at hstart; cases hstart

theorem Literal.ofToken?_of_isNumberToken {raw : String} (h : IsNumberToken raw.toList) :
    ofToken? raw = some (.number raw) := by
  obtain ⟨minus, digits, fraction, exponent, hs, hminus, hrun, -, -⟩ := h
  obtain ⟨d, ds, rfl, hd⟩ := exists_digit_of_isRun hrun
  have hquote : d ≠ '"' := by rintro rfl; revert hd; decide
  have hsign : d ≠ '-' := by rintro rfl; revert hd; decide
  unfold ofToken?
  rcases hminus with rfl | rfl
  · rw [hs]
    split
    · next heq => exact absurd (List.cons.inj heq).1 hquote
    · next heq => exact absurd (List.cons.inj heq).1 hsign
    · next heq => rw [← (List.cons.inj heq).1, if_pos hd]
    · next heq => cases heq
  · simp [hs, hd]

theorem Field.WellFormed.literal? {f : Field} (h : f.WellFormed) : f.lexeme.literal? = none := by
  have hname : IsIdent f.name := h
  obtain ⟨name, optional⟩ := f
  cases optional with
  | true =>
      have hlist : ("?" ++ name).toList = '?' :: name.toList := by simp
      have hfree : lowerToken ("?" ++ name) ∉ ["true", "false"] := by
        intro hmem
        rcases List.mem_pair.mp hmem with heq | heq <;>
          simpa [lowerToken] using congrArg String.toList heq
      show Literal.ofToken? ("?" ++ name) = none
      unfold Literal.ofToken?
      rw [hlist]
      exact if_neg hfree
  | false =>
      have hfree : lowerToken name ∉ ["true", "false"] := by
        refine fun hmem => hname.free ?_
        rcases List.mem_pair.mp hmem with heq | heq <;> rw [heq] <;> decide
      have htext : (⟨name, false⟩ : Field).lexeme = .text name := by simp [Field.lexeme]
      rw [htext, Lexeme.literal?, Literal.ofToken?_of_startsWord hname.startsWord, if_neg hfree]

theorem Literal.WellFormed.literal? {l : Literal} (h : l.WellFormed) :
    l.lexeme.literal? = some l := by
  cases l with
  | string raw =>
      obtain ⟨s, hs⟩ := IsStringToken.head h
      show Literal.ofToken? raw = _
      simp [Literal.ofToken?, hs]
  | number raw => exact Literal.ofToken?_of_isNumberToken h
  | boolean raw =>
      have hraw : IsBooleanToken raw := h
      rw [Literal.lexeme, Lexeme.literal?, Literal.ofToken?_of_startsWord hraw.startsWord,
        if_pos (List.mem_pair.mpr hraw)]

/-- A literal of the language has a value, which its expression holds. -/
theorem Literal.WellFormed.consts {l : Literal} (h : l.WellFormed) :
    l.expr.consts.map some = [l.const?] := by
  cases l with
  | number raw =>
      obtain ⟨c, hc⟩ := Option.isSome_iff_exists.mp (Literal.evalNumber?_isSome h)
      simp [Literal.expr, Literal.const?, Expr.consts, hc]
  | _ => rfl

/-! ## Constants in source order -/

theorem Expr.listConsts_eq_flatMap (es : List Expr) : listConsts es = es.flatMap consts := by
  induction es with
  | nil => rfl
  | cons e es ih => rw [listConsts, ih, List.flatMap_cons]

open Lexeme in
theorem Value.WellFormed.consts {v : Value} (h : v.WellFormed) :
    v.expr.consts.map some = Lexeme.consts v.lexemes := by
  induction v with
  | null => rfl
  | literal l =>
      rw [Value.lexemes, consts_cons_some (Literal.WellFormed.literal? h), consts_nil]
      exact Literal.WellFormed.consts h
  | field f =>
      rw [Value.lexemes, consts_cons_none (Field.WellFormed.literal? h)]
      rfl
  | call name args ih =>
      rw [Value.lexemes, consts_word, consts_grouped, consts_separated, listLexemes_eq_map,
        List.flatMap_map, Value.expr, Expr.consts, exprs_eq_map, Expr.listConsts_eq_flatMap,
        List.flatMap_map, List.map_flatMap]
      exact List.flatMap_congr fun v hv => ih v hv (allWellFormed_iff.mp h.2.2 v hv)
  | group v ih =>
      rw [Value.lexemes, consts_grouped]
      exact ih h
  | arith op left right ihl ihr =>
      have hop : (Lexeme.text op.token).literal? = none := by cases op <;> decide
      rw [Value.lexemes, consts_append, consts_cons_none hop, Value.expr, Expr.consts,
        List.map_append, ihl h.1, ihr h.2.1]

open Lexeme in
theorem LookupTarget.WellFormed.consts {target : LookupTarget} (h : target.WellFormed) :
    target.expr.consts.map some = Lexeme.consts target.lexemes := by
  cases target with
  | list items =>
      rw [LookupTarget.lexemes, consts_grouped, consts_separated, List.flatMap_map,
        LookupTarget.expr, Expr.consts, Expr.listConsts_eq_flatMap, List.flatMap_map,
        List.map_flatMap]
      refine List.flatMap_congr fun l hl => ?_
      rw [consts_cons_some (h.2 l hl).literal?, consts_nil]
      exact (h.2 l hl).consts
  | value v => exact h.1.consts

open Lexeme in
theorem Condition.WellFormed.consts {c : Condition} (h : c.WellFormed) :
    c.expr.consts.map some = Lexeme.consts c.lexemes := by
  induction c with
  | boolean raw =>
      have hliteral : (Lexeme.text raw).literal? = some (.boolean raw) :=
        Literal.WellFormed.literal? (l := .boolean raw) h
      rw [Condition.lexemes, consts_cons_some hliteral]
      rfl
  | not c ih =>
      rw [Condition.lexemes, consts_word, ← ih h.1, Condition.expr, Expr.consts, Expr.listConsts,
        Expr.listConsts, List.append_nil]
  | group c ih =>
      rw [Condition.lexemes, consts_grouped]
      exact ih h
  | comparison op left right =>
      have hop : (Lexeme.text op.token).literal? = none := by cases op <;> decide
      rw [Condition.lexemes, consts_append, consts_cons_none hop, Condition.expr, Expr.consts,
        List.map_append, h.1.consts, h.2.consts]
  | lookup field negated op target =>
      have hnegation : Lexeme.consts (negationLexemes negated) = [] := by cases negated <;> rfl
      rw [Condition.lexemes, consts_cons_none h.1.literal?, consts_append, hnegation,
        List.nil_append, consts_word, ← h.2.consts]
      rfl
  | call name args => exact Value.WellFormed.consts (v := .call name args) h
  | notCall name args =>
      rw [Condition.lexemes, consts_word, ← Value.WellFormed.consts (v := .call name args) h,
        Condition.expr, Expr.consts, Expr.listConsts, Expr.listConsts, List.append_nil, Value.expr]
  | logical op left right ihl ihr =>
      rw [Condition.lexemes, consts_append, consts_word, Condition.expr, Expr.consts,
        List.map_append, ihl h.1, ihr h.2.1]

/-! ## Queries -/

/-- The category that a query asks for: none if it asks for any, or for the
empty string. -/
def Category.asked? : Category → Option String
  | .any => none
  | .name text => some text
  | .quoted raw => if Literal.evalString raw = "" then none else some (Literal.evalString raw)

theorem Category.WellFormed.text? {category : Category} (h : category.WellFormed) :
    category.text? = category.asked? := by
  cases category with
  | any => rfl
  | name text =>
      have hne : text.isEmpty = false := by
        rw [String.isEmpty_eq_false_iff]
        rintro rfl
        exact IsIdent.ne_nil h rfl
      rw [Category.text?, hne]
      rfl
  | quoted raw => simp [Category.text?, Category.asked?]

/-- The leaves of the expression of a query. -/
theorem SimpleQuery.WellFormed.leaves {q : SimpleQuery} {categoryField : String} {e : Expr}
    (h : q.WellFormed) (he : q.expr? categoryField = some e) :
    e.symbols = q.fields.map Field.name ++ (q.category.asked?.map fun _ => categoryField).toList ∧
    e.consts.map some = Lexeme.consts q.lexemes.tail ++
      (q.category.asked?.map fun text => some (.string text)).toList := by
  have hcondition : ∀ {c}, q.condition = some c → q.fields.map Field.name = c.expr.symbols ∧
      Lexeme.consts q.lexemes.tail = c.expr.consts.map some := by
    intro c hc
    rw [SimpleQuery.fields, SimpleQuery.lexemes, hc, Condition.expr_symbols]
    refine ⟨rfl, ?_⟩
    rw [(h.2 c hc).consts]
    simp
  rw [← h.1.text?]
  rcases expr?_cases he with
    ⟨c, text, hc, htext, rfl⟩ | ⟨c, hc, htext, rfl⟩ | ⟨text, hc, htext, rfl⟩
  · rw [htext, (hcondition hc).1, (hcondition hc).2]
    simp [Expr.symbols, Expr.consts, Expr.string]
  · rw [htext, (hcondition hc).1, (hcondition hc).2]
    simp
  · rw [htext, SimpleQuery.fields, SimpleQuery.lexemes, hc]
    simp [Expr.symbols, Expr.consts, Expr.string]

/-- The tokens of each simple query stand together among those of the whole. -/
theorem Body.events_lexemes {b : Body Interval} {q : SimpleQuery} (h : q ∈ b.events) :
    q.lexemes <:+: b.lexemes := by
  have hbracketed : q.lexemes <:+: q.bracketed := ⟨[.text "["], [.text "]"], rfl⟩
  cases b with
  | simple s =>
      obtain rfl := List.mem_singleton.mp h
      exact List.infix_rfl
  | sequence s =>
      obtain ⟨step, hstep, rfl⟩ := List.mem_map.mp h
      have hmem : step.lexemes <:+: s.steps.flatMap SequenceStep.lexemes :=
        List.infix_of_mem_flatten (List.mem_map_of_mem hstep)
      have hsteps : s.steps.flatMap SequenceStep.lexemes <:+ s.lexemes :=
        (List.suffix_append _ _).trans ((List.suffix_append _ _).trans (List.suffix_cons _ _))
      have hstep : step.query.bracketed <+: step.lexemes := List.prefix_append _ _
      exact hbracketed.trans (hstep.isInfix.trans (hmem.trans hsteps.isInfix))
  | sample s =>
      have hmem : q.bracketed <:+: s.steps.flatMap SimpleQuery.bracketed :=
        List.infix_of_mem_flatten (List.mem_map_of_mem h)
      have hsteps : s.steps.flatMap SimpleQuery.bracketed <:+ s.lexemes :=
        (List.suffix_append _ _).trans ((List.suffix_cons _ _).trans (List.suffix_cons _ _))
      exact hbracketed.trans (hmem.trans hsteps.isInfix)

/-- **Lowering loses and reorders nothing.** Take a simple query in a text
that parses, and suppose that it lowers to an expression. The tokens of the
text are those of the parsed query, in order, and the simple query is a stretch
of them. The symbols of the expression are the names of the fields of the
query, its constants are the values of the literals among the tokens behind
the category, both in that order, and a category that is asked for comes last
in both. For a text that is a simple query only, these fields are all that the
text refers to. -/
theorem lower_leaves {text : String} {query : Query} (hparse : parse text = .ok query)
    {q : SimpleQuery} (hq : q ∈ query.body.events) {categoryField : String} {e : Expr}
    (hlower : q.lower categoryField = .ok (some e)) :
    (∃ rest, Lexed query.lexemes text.toList rest ∧ skipGap rest = []) ∧
    q.lexemes <:+: query.lexemes ∧
    (query.simple? = .ok q → query.fields = q.fields) ∧
    e.symbols = q.fields.map Field.name ++ (q.category.asked?.map fun _ => categoryField).toList ∧
    e.consts.map some = Lexeme.consts q.lexemes.tail ++
      (q.category.asked?.map fun text => some (.string text)).toList := by
  have hwf : query.WellFormed := ofText_wellFormed (ofText_of_parse hparse)
  have he := (SimpleQuery.lower_eq_ok_iff.mp hlower).2.symm
  have hlexemes : query.body.lexemes <+: query.lexemes := List.prefix_append _ _
  refine ⟨parse_lexed hparse, (Body.events_lexemes hq).trans hlexemes.isInfix, fun hsimple => ?_,
    (Body.WellFormed.events hwf.body q hq).leaves he⟩
  rw [Query.simple?_eq_ok_iff.mp hsimple]
  exact List.append_nil _

/-- A literal in a call, two in a list and a bare boolean; the minus
is a sign of the number and not an operation. -/
theorem lower_leaves_nested :
    let c : Condition := .logical .or
      (.logical .and
        (.notCall ⟨.startsWith, false⟩ [.field ⟨"a", false⟩, .literal (.string "\"x\"")])
        (.lookup ⟨"b", false⟩ true .inList (.list [.number "-1", .boolean "TRUE"])))
      (.boolean "false")
    let q : SimpleQuery := ⟨.quoted "\"f\"", some c⟩
    parse "\"f\" where not startsWith(a, \"x\") and b not in (-1, TRUE) or false" =
        .ok ⟨.simple q, []⟩ ∧
      ∃ e, q.lower "ev" = .ok (some e) ∧ e.symbols = ["a", "b", "ev"] ∧
        e.consts.map some = [some (.string "x"), some (.int (-1)), some (.bool true),
          some (.bool false), some (.string "f")] := by
  intro c q
  have hparse : parse "\"f\" where not startsWith(a, \"x\") and b not in (-1, TRUE) or false" =
      .ok ⟨.simple q, []⟩ := parse_of_finish rfl rfl
  have hlower : q.lower "ev" = .ok (some (.binary "and" c.expr
      (.binary "==" (.symbol "ev") (.string "f")))) := rfl
  obtain ⟨-, -, -, hsymbols, hconsts⟩ := lower_leaves hparse List.mem_cons_self hlower
  exact ⟨hparse, _, hlower, hsymbols, hconsts⟩

end EventQuery
