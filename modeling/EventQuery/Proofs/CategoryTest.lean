import EventQuery.Proofs.Parentheses
import EventQuery.Proofs.ProperTokens
import EventQuery.Proofs.QuantityErrors
import EventQuery.Proofs.ReadingDepth

/-!
# The test of the category

A condition is read in the same way whatever category stands before it: the
readers see only what is left of a text, and the bound on the depth of
nesting, which does depend on the whole text, makes no difference
(`parse_where_iff`).

So the filter of `c where t` is that of `any where t` with the test of the
category joined to it, whatever text `t` is. The clause of the condition
stands in it as it is, as the left operand of a conjunction in parentheses
(`ofText_where_name`).
-/

namespace EventQuery

open Grammar Reader

/-! ## Categories in front of a condition -/

/-- The words that spell a category. -/
inductive SpellsCategory : String → Category → Prop
  | any : SpellsCategory "any" .any
  | name {c : String} (h : IsIdent c) : SpellsCategory c (.name c)

namespace SpellsCategory

variable {w : String} {k : Category} {rest : List Char}

theorem isWord (h : SpellsCategory w k) : IsWord w.toList := by
  cases h with
  | any => decide
  | name h => exact h.word

theorem lowerToken_ne (h : SpellsCategory w k) {v : String} (hv : v ∈ ["sequence", "sample"]) :
    lowerToken w ≠ v := by
  rintro rfl
  cases h with
  | any => revert hv; decide
  | name h =>
      have hreserved : ∀ v ∈ ["sequence", "sample"], v ∈ reservedWords := by decide
      exact h.free (hreserved _ hv)

theorem startsWord (h : SpellsCategory w k) : startsWord w.toList = true := by
  cases h with
  | any => rfl
  | name h => exact h.startsWord

theorem skipGap_append (h : SpellsCategory w k) (rest : List Char) :
    skipGap (w.toList ++ rest) = w.toList ++ rest := by
  obtain ⟨d, ds, hw, hgap, -⟩ := proper_of_startsWord h.startsWord w.toList rfl
  have hslash := head_ne_of_startsWord h.startsWord (d := '/') rfl
  rw [hw] at hslash ⊢
  exact skipGap_of_head hgap fun heq => absurd (congrArg some heq) hslash

theorem lowerWord_append (h : SpellsCategory w k) (hrest : Halts isWordChar rest) :
    lowerWord (w.toList ++ rest) = lowerToken w :=
  EventQuery.lowerWord_append h.isWord.isWordChar hrest

theorem category_read (h : SpellsCategory w k) (hrest : Halts isWordChar rest) :
    category.read (w.toList ++ rest) = some (k, rest) := by
  have hlow := h.lowerWord_append hrest
  have hchars := h.isWord.isWordChar
  have hquote : scanString (w.toList ++ rest) = none :=
    scanString_eq_none (head_ne_of_startsWord (startsWord_append h.startsWord rest) rfl)
  cases h with
  | any =>
      have hany : scanWord ["any"] ("any".toList ++ rest) = some ("any", rest) :=
        scanWord_append (by decide) hchars hrest
      simp only [category, read_named, read_orElse, read_bind, read_token, hany, read_pure,
        Option.bind_some, Option.some_or]
  | name h =>
      have hany : scanWord ["any"] (w.toList ++ rest) = none := by
        refine scanWord_eq_none fun hmem => h.free ?_
        rw [← hlow, List.mem_singleton.mp hmem]
        decide
      simp only [category, read_named, read_orElse, read_bind, read_token, hany, string, hquote,
        scanIdent_append h hrest, read_pure, Option.bind_none, Option.bind_some, Option.none_or]

theorem keyword_read (h : SpellsCategory w k) (hrest : Halts isWordChar rest) {v : String}
    (hv : v ∈ ["sequence", "sample"]) (x : Symbol) :
    (keyword x v).read (w.toList ++ rest) = none := by
  refine keyword_eq_none ?_
  rw [h.lowerWord_append hrest]
  exact h.lowerToken_ne hv

end SpellsCategory

/-! ## Reading what follows -/

/-- A category, `where` and any text after it. -/
def whereChars (w : String) (t : List Char) : List Char := w.toList ++ (" where ".toList ++ t)

section Queries

variable {w : String} {k : Category} {t : List Char}

theorem halts_where (t : List Char) : Halts isWordChar (" where ".toList ++ t) := halts_cons rfl

theorem skipGap_where (t : List Char) :
    skipGap (" where ".toList ++ t) = "where".toList ++ ' ' :: t :=
  (skipGap_blank rfl).trans (skipGap_of_head rfl fun h => absurd h (by decide))

/-- After the category comes `where`, and then the condition. -/
theorem whereClause_read (cond : Reader Condition) (t : List Char) :
    (do spaced (keyword .kwWhere "where"); spaced cond : Reader Condition).read
      (" where ".toList ++ t) = cond.read (skipGap t) := by
  have hscan : scanWord ["where"] ("where".toList ++ ' ' :: t) = some ("where", ' ' :: t) :=
    scanWord_append (by decide) (List.all_eq_true.mp rfl) (halts_cons rfl)
  have hskip : skipGap (' ' :: t) = skipGap t := skipGap_blank rfl
  simp only [keyword, read_bind, read_spaced, read_token, read_pure, skipGap_where, hscan, hskip,
    Option.bind_some]

variable (h : SpellsCategory w k)
include h

theorem simpleQuery_read_where (cond : Reader Condition) (t : List Char) :
    (simpleQuery cond).read (whereChars w t) =
      match cond.read (skipGap t) with
      | some (c, rest) => some (⟨k, some c⟩, rest)
      | none => some (⟨k, none⟩, " where ".toList ++ t) := by
  have hcat : category.read (whereChars w t) = some (k, " where ".toList ++ t) := by
    rw [whereChars, h.category_read (halts_where t)]
  simp only [simpleQuery, read_named, read_bind, hcat, Option.bind_some]
  have hclause := whereClause_read cond t
  cases hc : cond.read (skipGap t) with
  | none =>
      rw [read_optional_none (hclause.trans hc)]
      rfl
  | some found =>
      rw [read_optional_some (hclause.trans hc)]
      rfl

theorem body_read_where (cond : Reader Condition) (t : List Char) :
    (body cond).read (whereChars w t) =
      match cond.read (skipGap t) with
      | some (c, rest) => some (.simple ⟨k, some c⟩, rest)
      | none => some (.simple ⟨k, none⟩, " where ".toList ++ t) := by
  have hkeyword {x : Symbol} {v : String} (hv : v ∈ ["sequence", "sample"]) :
      (keyword x v).read (whereChars w t) = none := by
    rw [whereChars, h.keyword_read (halts_where t) hv]
  simp only [body, read_orElse, read_bind, sequenceQuery, sampleQuery, read_named,
    hkeyword (v := "sequence") (by decide), hkeyword (v := "sample") (by decide),
    Option.bind_none, Option.none_or, simpleQuery_read_where h cond t]
  cases cond.read (skipGap t) <;> rfl

omit h in
/-- A query without pipes takes the whole text, if its body does. -/
theorem queryOf_read_iff {cond : Reader Condition} {s rest : List Char} {b b' : Body SourceToken}
    (hbody : (body cond).read (skipGap s) = some (b, rest)) :
    (∃ tail, (queryOf cond).read s = some (⟨b', []⟩, tail)) ↔ b' = b ∧ skipGap rest = [] := by
  have hend (s : List Char) : endOfInput.read s = if s = [] then some ((), []) else none := by
    cases s <;> rfl
  simp only [queryOf, read_named, read_bind, read_spaced, hbody, hend, Option.bind_some,
    Option.bind_eq_some_iff, read_pure, Option.some.injEq, Prod.mk.injEq]
  constructor
  · rintro ⟨tail, ⟨pipes, left⟩, hpipes, found, hfound, heq, -⟩
    obtain ⟨rfl, rfl⟩ := QueryOf.mk.inj heq
    obtain rfl := read_many_nil hpipes
    refine ⟨rfl, ?_⟩
    by_contra hne
    rw [if_neg hne] at hfound
    cases hfound
  · rintro ⟨rfl, hgap⟩
    have hpipe : (spaced (pipe cond)).read rest = none := by
      simp only [pipe, read_spaced, read_named, read_bind, hgap]
      rfl
    refine ⟨[], ([], rest), (Takes.done hpipe).read_many, ((), []), ?_, rfl, rfl⟩
    exact if_pos hgap

/-- The query of a category and a condition takes the whole text, if the
condition does. -/
theorem queryOf_read_where_iff {cond : Reader Condition} {q : SimpleQuery} :
    (∃ tail, (queryOf cond).read (whereChars w t) = some (⟨.simple q, []⟩, tail)) ↔
      ∃ c rest, q = ⟨k, some c⟩ ∧ cond.read (skipGap t) = some (c, rest) ∧ skipGap rest = [] := by
  have hskip : skipGap (whereChars w t) = whereChars w t := h.skipGap_append _
  have hbody := body_read_where h cond t
  rw [← hskip] at hbody
  cases hc : cond.read (skipGap t) with
  | none =>
      rw [hc] at hbody
      rw [queryOf_read_iff hbody]
      refine iff_of_false (fun hread => ?_) (fun ⟨c, rest, _, hread, _⟩ => nomatch hread)
      -- without a condition the word `where` is left over
      rw [skipGap_where] at hread
      cases hread.2
  | some found =>
      rw [hc] at hbody
      rw [queryOf_read_iff hbody]
      constructor
      · rintro ⟨hq, hgap⟩
        exact ⟨found.1, found.2, Body.simple.inj hq, rfl, hgap⟩
      · rintro ⟨c, rest, rfl, hread, hgap⟩
        obtain rfl := Option.some.inj hread
        exact ⟨rfl, hgap⟩

end Queries

theorem bodyOfSource_eq_simple {b : Body SourceToken} {q : SimpleQuery}
    (h : bodyOfSource b = some (.simple q)) : b = .simple q := by
  cases b with
  | simple => cases h; rfl
  | sample => cases h
  | sequence q =>
      obtain ⟨keys, span, steps⟩ := q
      cases span with
      | none => cases h
      | some t =>
          obtain ⟨i, -, hi⟩ := Option.map_eq_some_iff.mp h
          cases hi

theorem finish?_eq_simple_iff {source : SourceQuery} {q : SimpleQuery} :
    source.finish? = some ⟨.simple q, []⟩ ↔ source = ⟨.simple q, []⟩ := by
  constructor
  · obtain ⟨body, pipes⟩ := source
    simp only [SourceQuery.finish?, bind, Option.bind_eq_some_iff, pure, Option.some.injEq,
      QueryOf.mk.injEq]
    rintro ⟨found, hbody, found', hpipes, rfl, rfl⟩
    refine ⟨bodyOfSource_eq_simple hbody, ?_⟩
    cases pipes with
    | nil => rfl
    | cons p pipes => simp [List.mapM_cons, Option.bind_eq_some_iff] at hpipes
  · rintro rfl
    rfl

theorem parse_eq_simple_iff {text : String} {q : SimpleQuery} :
    parse text = .ok ⟨.simple q, []⟩ ↔
      ∃ tail, (query text.toList).read text.toList = some (⟨.simple q, []⟩, tail) := by
  constructor
  · intro h
    obtain ⟨source, tail, hsource, hfinish⟩ := Query.ofChars_eq_ok_iff.mp (ofText_of_parse h)
    exact ⟨tail, finish?_eq_simple_iff.mp hfinish ▸ hsource⟩
  · rintro ⟨tail, hread⟩
    rw [parse_of_read hread, finish?_eq_simple_iff.mpr rfl]

/-- **Reading after a category.** A category and a condition are read as a
query, if the condition takes all that follows `where`. What it takes does
not depend on the category. -/
theorem parse_where_iff {w t : String} {k : Category} (h : SpellsCategory w k) {q : SimpleQuery} :
    parse (w ++ " where " ++ t) = .ok ⟨.simple q, []⟩ ↔
      ∃ c rest, q = ⟨k, some c⟩ ∧
        (condition (t.toList.length + 1)).read (skipGap t.toList) = some (c, rest) ∧
          skipGap rest = [] := by
  have htext : (w ++ " where " ++ t).toList = whereChars w t.toList := by
    rw [String.toList_append, String.toList_append, whereChars, List.append_assoc]
  have hdepth : (condition ((whereChars w t.toList).length + 1)).read (skipGap t.toList) =
      (condition (t.toList.length + 1)).read (skipGap t.toList) := by
    have hle := skipGap_length_le t.toList
    refine condition_read_eq ?_ (Nat.lt_succ_of_le hle)
    rw [whereChars, List.length_append, List.length_append]
    omega
  rw [parse_eq_simple_iff, htext, query, queryOf_read_where_iff h, hdepth]

/-! ## The filter -/

namespace Options

/-- The field of the category as it stands in a filter. -/
def categorySql (o : Options) : String :=
  match o.namer.getD .identity o.categoryField with
  | .ok column => column
  | .error e => "throwIf(true, " ++ Sql.quote e.message ++ ")"

/-- Why there is no column for the category. -/
def categoryError? (o : Options) : Option SoftError :=
  (o.namer.getD .identity).error? o.categoryField

end Options

theorem Expr.clause_filter {o : Options} (h : o.extractParameters = false) (e : Expr) :
    (e.clause o).filter = ⟨(e.translated (o.namer.getD .identity)).result.sql, [],
      e.symbols.filterMap (o.namer.getD .identity).error? ++
        (e.translated (o.namer.getD .identity)).errors⟩ := by
  rw [← toSql_errors, ← toSql_result, clause, h]
  rfl

/-- A word needs no escapes. -/
theorem quote_of_isWord {c : String} (h : IsWord c.toList) : Sql.quote c = "'" ++ c ++ "'" := by
  have hescape : ∀ d ∈ c.toList, Sql.escapeChar d = [d] := by
    intro d hd
    have hword := h.isWordChar d hd
    unfold Sql.escapeChar
    split
    iterate 5 exact absurd hword (by decide)
    rfl
  rw [Sql.quote, List.flatMap_congr hescape, List.flatMap_singleton', String.ofList_toList]

namespace Expr

/-- A condition joined with the test of a category. -/
def inCategory (e : Expr) (categoryField c : String) : Expr :=
  .binary "and" e (.binary "==" (.symbol categoryField) (.string c))

theorem inCategory_translated (namer : Namer) (e : Expr) (categoryField c : String) :
    (e.inCategory categoryField c).translated namer =
      ⟨.binary "AND" (e.translated namer).result
          (.binary "=" ((Expr.symbol categoryField).translated namer).result (.string c)),
        (e.translated namer).errors⟩ := by
  have htest : (Expr.binary "==" (.symbol categoryField) (.string c)).translated namer =
      ⟨.binary "=" ((Expr.symbol categoryField).translated namer).result (.string c), []⟩ := by
    refine (translated_compare namer .eq _ _).trans ?_
    rw [translated_symbol]
    rfl
  rw [inCategory, translated_binary, htest]
  exact congrArg (Mapped.mk _) (List.append_nil _)

theorem symbol_translated_sql (o : Options) :
    ((Expr.symbol o.categoryField).translated (o.namer.getD .identity)).result.sql =
      o.categorySql := by
  rw [translated_symbol, Options.categorySql]
  cases o.namer.getD .identity o.categoryField <;> rfl

/-- The test stands beside the clause of the condition. -/
theorem inCategory_sql (o : Options) (e : Expr) {c : String} (h : IsWord c.toList) :
    ((e.inCategory o.categoryField c).translated (o.namer.getD .identity)).result.sql =
      "(" ++ (e.translated (o.namer.getD .identity)).result.sql ++ " AND (" ++ o.categorySql ++
        " = '" ++ c ++ "'))" := by
  rw [inCategory_translated]
  show "(" ++ _ ++ " " ++ "AND" ++ " " ++ ("(" ++ sql _ ++ " " ++ "=" ++ " " ++ Sql.quote c ++ ")")
    ++ ")" = _
  rw [symbol_translated_sql, quote_of_isWord h]
  apply String.toList_inj.mp
  simp [String.toList_append]

theorem inCategory_symbols_errors (o : Options) (e : Expr) (c : String) :
    (e.inCategory o.categoryField c).symbols.filterMap (o.namer.getD .identity).error? =
      e.symbols.filterMap (o.namer.getD .identity).error? ++ o.categoryError?.toList := by
  have hsymbols : (e.inCategory o.categoryField c).symbols = e.symbols ++ [o.categoryField] := rfl
  rw [hsymbols, List.filterMap_append, Options.categoryError?]
  cases h : (o.namer.getD .identity).error? o.categoryField <;> simp [h]

end Expr

theorem Category.expr?_name {c : String} (h : IsWord c.toList) (categoryField : String) :
    (Category.name c).expr? categoryField =
      some (.binary "==" (.symbol categoryField) (.string c)) := by
  have hne : c.isEmpty = false := by
    rw [Bool.eq_false_iff]
    intro hempty
    rw [String.isEmpty_iff.mp hempty] at h
    cases h
  rw [Category.expr?, Category.text?, hne]
  rfl

/-- **The test of the category cannot be bypassed.** Whatever stands after
`where`, a query for one category has the filter of the query for any
category, joined with the test. The test adds no error but its own, if there
is no column for the category. -/
theorem ofText_where_name {o : Options} (ho : o.extractParameters = false) {c : String}
    (hc : IsIdent c) {t : String} {f : Filter} (h : Filter.ofText o ("any where " ++ t) = .ok f) :
    ∃ before after, f.errors = before ++ after ∧
      Filter.ofText o (c ++ " where " ++ t) =
        .ok ⟨"(" ++ f.whereClause ++ " AND (" ++ o.categorySql ++ " = '" ++ c ++ "'))",
          f.parameters, before ++ o.categoryError?.toList ++ after⟩ := by
  obtain ⟨c?, hclause, hf⟩ := Filter.ofText_eq_ok_iff.mp h
  obtain ⟨q, hparse, hfaults, rfl⟩ := clauseText_eq_ok_iff.mp hclause
  obtain ⟨cond, rest, rfl, hread⟩ := (parse_where_iff .any).mp hparse
  have hname := (parse_where_iff (.name hc)).mpr ⟨cond, rest, rfl, hread⟩
  have hexpr : (SimpleQuery.mk (.name c) (some cond)).expr? o.categoryField =
      some (cond.expr.inCategory o.categoryField c) := by
    rw [SimpleQuery.expr?, Category.expr?_name hc.word]
    rfl
  have hany : f = (cond.expr.clause o).filter := hf
  have hfilter : Filter.ofText o (c ++ " where " ++ t) =
      .ok ((cond.expr.inCategory o.categoryField c).clause o).filter := by
    rw [Filter.ofText_of_parse hname hfaults, hexpr]
    rfl
  rw [Expr.clause_filter ho] at hany hfilter
  rw [Expr.inCategory_sql o _ hc.word, Expr.inCategory_symbols_errors,
    Expr.inCategory_translated] at hfilter
  subst hany
  exact ⟨_, _, rfl, hfilter⟩

/-- An alternative and a comment with a parenthesis stay in the first
operand. The category has no column: its error comes after that of the field
`e` and before that of the call. -/
theorem ofText_where_name_alternative :
    let o : Options := ⟨"ev", some (.denying "e" "x"), false⟩
    let t := "e == 1 or length(a, b) // )"
    ∃ f : Filter, Filter.ofText o ("any where " ++ t) = .ok f ∧ f.errors.length = 2 ∧
      ∃ before after, f.errors = before ++ after ∧
        Filter.ofText o ("process" ++ " where " ++ t) =
          .ok ⟨"(" ++ f.whereClause ++ " AND (" ++ o.categorySql ++ " = '" ++ "process" ++ "'))",
            f.parameters, before ++ o.categoryError?.toList ++ after⟩ := by
  intro o t
  have hparse : parse ("any where " ++ t) = .ok ⟨.simple ⟨.any, some (.logical .or
      (.comparison .eq (.field ⟨"e", false⟩) (.literal (.number "1")))
      (.call ⟨.length, false⟩ [.field ⟨"a", false⟩, .field ⟨"b", false⟩]))⟩, []⟩ := by
    rw [show "any where " ++ t = "any where e == 1 or length(a, b) // )" from rfl]
    exact parse_of_finish rfl rfl
  have h := Filter.ofText_of_parse (o := o) hparse rfl
  exact ⟨_, h, rfl, ofText_where_name rfl (by decide) h⟩

end EventQuery
