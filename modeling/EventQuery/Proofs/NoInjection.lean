import EventQuery.Proofs.FilterStages
import EventQuery.Proofs.SqlLexing
import EventQuery.Proofs.SqlNames

/-!
# No text escapes its quotes

Whatever a query says, the clause made of it is read by an SQL engine the
way it was meant: the literals of the clause are the strings of its tree
and the messages of its faults, in order and unchanged, and around them
there is nothing but columns, numbers and the names that the dialect
writes, with balanced parentheses and without a comment.

The text of a tree is a piece (`Sql.Piece`) if the names in it are those
of the dialect and each of its symbols is a piece of code
(`Expr.sql_piece`). The symbols of a clause are words of the query
language, or such words as quoted paths, or placeholders.
-/

namespace EventQuery

open Grammar

/-! ## The quoted texts of a tree -/

namespace Expr

mutual

/-- The strings and the messages of an expression from left to right. -/
def quotedTexts : Expr → List String
  | .const (.string s) => [s]
  | .const _ => []
  | .symbol _ => []
  | .null => []
  | .group e => e.quotedTexts
  | .binary _ left right => left.quotedTexts ++ right.quotedTexts
  | .unary _ args => listQuotedTexts args
  | .call _ args => listQuotedTexts args
  | .array items => listQuotedTexts items
  | .fault message => [message]

def listQuotedTexts : List Expr → List String
  | [] => []
  | e :: es => e.quotedTexts ++ listQuotedTexts es

end

end Expr

/-! ## Words and numbers -/

namespace Sql

theorem isCodeChar_of_isWordChar {placeholders : Bool} {c : Char} (h : isWordChar c = true) :
    isCodeChar placeholders c = true := by
  simp only [isWordChar, Bool.or_eq_true, decide_eq_true_eq] at h
  rcases h with ((h | rfl) | rfl) | rfl
  · simp [isCodeChar, h]
  · cases placeholders <;> rfl
  · cases placeholders <;> rfl
  · cases placeholders <;> rfl

theorem parens_ne_of_isWordChar {c : Char} (h : isWordChar c = true) : c ≠ '(' ∧ c ≠ ')' := by
  constructor <;> rintro rfl <;> cases h

theorem inert_of_isWordChar {c : Char} (h : isWordChar c = true) : isInert c = true := by
  simp only [isInert, Bool.and_eq_true, bne_iff_ne]
  refine ⟨⟨?_, ?_⟩, ?_⟩ <;> rintro rfl <;> cases h

theorem Piece.word {p : Bool} {s : List Char} (h : ∀ c ∈ s, isWordChar c = true) :
    Piece p s [] s :=
  .plain (fun c hc => isCodeChar_of_isWordChar (h c hc))
    (fun c hc => parens_ne_of_isWordChar (h c hc))
    (isChain_of_inert fun c hc => inert_of_isWordChar (h c hc))

/-- A word after a sign. -/
theorem Piece.signed {p : Bool} {s : List Char} (negative : Bool)
    (h : ∀ c ∈ s, isWordChar c = true) :
    Piece p (Binary64.signText negative ++ s) [] (Binary64.signText negative ++ s) := by
  cases negative with
  | false => exact .word h
  | true =>
      refine .plain ?_ ?_ (List.isChain_cons.mpr ⟨fun b hb => ?_, ?_⟩)
      · refine List.forall_mem_cons.mpr ⟨by cases p <;> rfl, fun c hc => ?_⟩
        exact isCodeChar_of_isWordChar (h c hc)
      · exact List.forall_mem_cons.mpr ⟨by decide, fun c hc => parens_ne_of_isWordChar (h c hc)⟩
      · exact apart_of_inert_right (inert_of_isWordChar (h b (List.mem_of_mem_head? hb))) '-'
      · exact isChain_of_inert fun c hc => inert_of_isWordChar (h c hc)

end Sql

theorem isWordChar_of_mem_toDigits {n : Nat} {c : Char} (h : c ∈ Nat.toDigits 10 n) :
    isWordChar c = true :=
  isWordChar_of_isDigit _ (Nat.isDigit_of_mem_toDigits (by decide) (by decide) h)

theorem toList_toString_int (n : Int) : (toString n).toList =
    Binary64.signText (n < 0) ++ Nat.toDigits 10 n.natAbs := by
  cases n with
  | ofNat n => simp [Binary64.signText, toString, Int.repr]
  | negSucc n => simp [Binary64.signText, toString, Int.repr, Int.negSucc_lt_zero]

theorem Decimal.isWordChar_positional (d : Decimal) : ∀ c ∈ d.positional, isWordChar c = true := by
  have hdigits : ∀ c ∈ digitText d.digits, isWordChar c = true :=
    fun c hc => isWordChar_of_mem_toDigits hc
  have hzeros : ∀ n, ∀ c ∈ zeros n, isWordChar c = true := by
    intro n c hc
    rw [List.eq_of_mem_replicate hc]
    rfl
  unfold positional
  dsimp only
  split
  · simp only [List.forall_mem_append]
    exact ⟨⟨List.all_eq_true.mp rfl, hzeros _⟩, hdigits⟩
  · split
    · simp only [List.forall_mem_append]
      exact ⟨⟨fun c hc => hdigits c (List.mem_of_mem_take hc), List.all_eq_true.mp rfl⟩,
        fun c hc => hdigits c (List.mem_of_mem_drop hc)⟩
    · simp only [List.forall_mem_append]
      exact ⟨hdigits, hzeros _⟩

theorem Binary64.plain_piece {p : Bool} (x : Binary64) :
    Sql.Piece p x.plain.toList [] x.plain.toList := by
  cases x with
  | nan => exact .word (List.all_eq_true.mp rfl)
  | infinity negative =>
      rw [plain, String.toList_ofList]
      exact .signed negative (List.all_eq_true.mp rfl)
  | finite negative m e =>
      rw [plain, String.toList_ofList]
      refine .signed negative ?_
      split
      · exact List.all_eq_true.mp rfl
      · exact Decimal.isWordChar_positional _

theorem Const.sql_piece {p : Bool} (c : Const) :
    ∃ code, Sql.Piece p c.sql.toList (Expr.const c).quotedTexts code := by
  cases c with
  | string s => exact ⟨[], .literal s⟩
  | int n =>
      have hdigits : Sql.Piece p (Binary64.signText (n < 0) ++ Nat.toDigits 10 n.natAbs) [] _ :=
        .signed _ fun c hc => isWordChar_of_mem_toDigits hc
      rw [← toList_toString_int] at hdigits
      exact ⟨_, hdigits⟩
  | float x => exact ⟨_, x.plain_piece⟩
  | bool b => exact ⟨_, .word (List.all_eq_true.mp (by cases b <;> rfl))⟩

/-! ## The text of a tree -/

namespace Sql

theorem operators_areSeparators :
    ∀ op ∈ operators, IsSeparator (' ' :: (op.toList ++ [' '])) := by
  decide

theorem comma_isSeparator : IsSeparator [',', ' '] := by
  decide

theorem functions_areLabels : ∀ name ∈ functions, name.toList.all isLabelChar = true := by
  decide

end Sql

namespace Expr

open Sql

-- Each text is put in place by computing; the equations of `sql` are much slower to derive.
theorem toList_sql_group (e : Expr) :
    (Expr.group e).sql.toList = '(' :: (e.sql.toList ++ [')']) := by
  change ("(" ++ e.sql ++ ")").toList = _
  simp

theorem toList_sql_binary (op : String) (left right : Expr) :
    (Expr.binary op left right).sql.toList =
      '(' :: (left.sql.toList ++ (' ' :: (op.toList ++ [' ']) ++ right.sql.toList) ++ [')']) := by
  change ("(" ++ left.sql ++ " " ++ op ++ " " ++ right.sql ++ ")").toList = _
  simp

theorem toList_sql_unary (op : String) (args : List Expr) :
    (Expr.unary op args).sql.toList =
      '(' :: ((op.toList ++ [' ']) ++ (listSql args).toList ++ [')']) := by
  change ("(" ++ op ++ " " ++ listSql args ++ ")").toList = _
  simp

theorem toList_sql_call (name : String) (args : List Expr) :
    (Expr.call name args).sql.toList = name.toList ++ '(' :: ((listSql args).toList ++ [')']) := by
  change (name ++ "(" ++ listSql args ++ ")").toList = _
  simp

theorem toList_sql_array (items : List Expr) :
    (Expr.array items).sql.toList = '(' :: ((listSql items).toList ++ [')']) := by
  change ("(" ++ listSql items ++ ")").toList = _
  simp

theorem toList_sql_fault (message : String) : (Expr.fault message).sql.toList =
    "throwIf".toList ++ '(' ::
      ("true".toList ++ ([',', ' '] ++ (quote message).toList) ++ [')']) := by
  change ("throwIf(true, " ++ quote message ++ ")").toList = _
  simp

theorem toList_listSql_cons_cons (e e' : Expr) (es : List Expr) :
    (listSql (e :: e' :: es)).toList =
      e.sql.toList ++ ([',', ' '] ++ (listSql (e' :: es)).toList) := by
  simp [listSql, String.toList_append]

theorem listSql_piece {p : Bool} : ∀ {es : List Expr},
    (∀ e ∈ es, ∃ code, Piece p e.sql.toList e.quotedTexts code) →
      ∃ code, Piece p (listSql es).toList (listQuotedTexts es) code
  | [], _ => ⟨[], .empty⟩
  | [e], h => by
      obtain ⟨code, hcode⟩ := h e List.mem_cons_self
      rw [listQuotedTexts, listQuotedTexts, List.append_nil]
      exact ⟨code, hcode⟩
  | e :: e' :: es, h => by
      obtain ⟨code, hcode⟩ := h e List.mem_cons_self
      obtain ⟨code', hcode'⟩ := listSql_piece fun e he => h e (List.mem_cons_of_mem _ he)
      rw [toList_listSql_cons_cons]
      exact ⟨_, hcode.join comma_isSeparator hcode'⟩

/-- The text of a tree is a piece, if its names are those of the dialect
and its symbols are pieces of code. -/
theorem sql_piece {p : Bool} {e : Expr} (hnames : e.SqlNames)
    (hsymbols : ∀ s ∈ e.symbols, ∃ code, Piece p s.toList [] code) :
    ∃ code, Piece p e.sql.toList e.quotedTexts code := by
  have hlist : ∀ es : List Expr,
      (∀ e ∈ es, e.SqlNames → (∀ s ∈ e.symbols, ∃ code, Piece p s.toList [] code) →
        ∃ code, Piece p e.sql.toList e.quotedTexts code) →
      AllSqlNames es → (∀ s ∈ listSymbols es, ∃ code, Piece p s.toList [] code) →
      ∃ code, Piece p (listSql es).toList (listQuotedTexts es) code := by
    intro es ih hnames hsymbols
    refine listSql_piece fun e he => ih e he (allSqlNames_iff.mp hnames e he) fun s hs => ?_
    exact hsymbols s (mem_listSymbols.mpr ⟨e, he, hs⟩)
  induction e with
  | const c => exact c.sql_piece
  | symbol name => exact hsymbols name (List.mem_singleton_self name)
  | null => exact ⟨_, .word (List.all_eq_true.mp rfl)⟩
  | group e ih =>
      obtain ⟨code, hcode⟩ := ih hnames hsymbols
      rw [toList_sql_group]
      exact ⟨_, hcode.wrap⟩
  | binary op left right ihl ihr =>
      obtain ⟨hop, hl, hr⟩ := hnames
      obtain ⟨code, hcode⟩ := ihl hl fun s hs => hsymbols s (List.mem_append_left _ hs)
      obtain ⟨code', hcode'⟩ := ihr hr fun s hs => hsymbols s (List.mem_append_right _ hs)
      rw [toList_sql_binary]
      exact ⟨_, (hcode.join (operators_areSeparators op hop) hcode').wrap⟩
  | unary op args ih =>
      obtain ⟨rfl, hargs⟩ := hnames
      obtain ⟨code, hcode⟩ := hlist args ih hargs hsymbols
      rw [toList_sql_unary]
      exact ⟨_, (hcode.label (List.all_eq_true.mp rfl)).wrap⟩
  | call name args ih =>
      obtain ⟨hname, hargs⟩ := hnames
      obtain ⟨code, hcode⟩ := hlist args ih hargs hsymbols
      rw [toList_sql_call]
      exact ⟨_, hcode.wrap.label (List.all_eq_true.mp (functions_areLabels name hname))⟩
  | array items ih =>
      obtain ⟨code, hcode⟩ := hlist items ih hnames hsymbols
      rw [toList_sql_array]
      exact ⟨_, hcode.wrap⟩
  | fault message =>
      have hcondition : Piece p "true".toList [] _ := .word (List.all_eq_true.mp rfl)
      rw [toList_sql_fault]
      exact ⟨_, ((hcondition.join comma_isSeparator (.literal message)).wrap).label
        (List.all_eq_true.mp rfl)⟩

end Expr

/-! ## Symbols -/

namespace Sql

theorem ident_piece {p : Bool} {name : String} (h : IsIdent name) :
    Piece p name.toList [] name.toList :=
  .word h.word.isWordChar

/-- The path of a word is one quoted identifier. -/
theorem columnPath_piece {p : Bool} {name : String} (h : IsIdent name) :
    Piece p (Namer.columnPathText name).toList [] [] := by
  rw [Namer.columnPathText, String.toList_ofList, List.cons_append]
  refine .identifier fun hquote => ?_
  obtain ⟨c, hc, hquote⟩ := List.mem_flatMap.mp hquote
  have hword := h.word.isWordChar c hc
  split at hquote
  · simp at hquote
  · split at hquote
    · rename_i hc
      rw [hc] at hword
      cases hword
    · rw [← List.mem_singleton.mp hquote] at hword
      cases hword

theorem placeholder_chars (n : Nat) (c : Const) : ∀ ch ∈ (placeholder n c).toList,
    isWordChar ch = true ∨ ch ∈ ['\x7b', '\x7d', ':'] := by
  have htype : ∀ ch ∈ c.placeholderType.toList, isWordChar ch = true := by
    refine List.all_eq_true.mp ?_
    cases c <;> rw [Const.placeholderType] <;> decide
  rw [toList_placeholder]
  simp only [List.forall_mem_cons, List.forall_mem_append]
  exact ⟨.inr (by decide), .inl rfl, .inl rfl, fun ch hch => .inl (isWordChar_of_mem_toDigits hch),
    .inr (by decide), fun ch hch => .inl (htype ch hch), .inr (by decide), by simp⟩

theorem placeholder_piece (n : Nat) (c : Const) :
    Piece true (placeholder n c).toList [] (placeholder n c).toList := by
  have hchars : ∀ ch ∈ (placeholder n c).toList,
      isCodeChar true ch = true ∧ (ch ≠ '(' ∧ ch ≠ ')') ∧ isInert ch = true := by
    intro ch hch
    rcases placeholder_chars n c ch hch with hword | hmark
    · exact ⟨isCodeChar_of_isWordChar hword, parens_ne_of_isWordChar hword,
        inert_of_isWordChar hword⟩
    · simp only [List.mem_cons, List.not_mem_nil, or_false] at hmark
      rcases hmark with rfl | rfl | rfl <;> decide
  exact .plain (fun ch hch => (hchars ch hch).1) (fun ch hch => (hchars ch hch).2.1)
    (isChain_of_inert fun ch hch => (hchars ch hch).2.2)

/-- A column of a word, under one of the two ways to name columns. -/
theorem column_piece {p : Bool} {namer : Option Namer}
    (hnamer : namer = none ∨ namer = some .columnPath) {name column : String} (hname : IsIdent name)
    (hcolumn : namer.getD .identity name = .ok column) : ∃ code, Piece p column.toList [] code := by
  rcases hnamer with rfl | rfl
  · cases hcolumn
    exact ⟨_, ident_piece hname⟩
  · cases hcolumn
    exact ⟨_, columnPath_piece hname⟩

end Sql

/-! ## The headline theorem -/

/-- The texts that a clause quotes; a query that matches everything has no
clause. -/
def clauseTexts : Option Clause → List String
  | none => []
  | some c => c.tree.quotedTexts

/-- The text of the clause of an expression over words is a piece. -/
theorem Expr.clause_piece {o : Options} (hnamer : o.namer = none ∨ o.namer = some .columnPath)
    {e : Expr} (hsymbols : ∀ s ∈ e.symbols, IsIdent s) :
    ∃ code, Sql.Piece o.extractParameters (e.clause o).tree.sql.toList
      (e.clause o).tree.quotedTexts code := by
  have hcolumns : ∀ s ∈ (e.toSql o.namer).result.symbols,
      ∃ code, Sql.Piece o.extractParameters s.toList [] code := by
    intro s hs
    obtain ⟨name, hname, hcolumn⟩ := e.toSql_symbols o.namer s hs
    exact Sql.column_piece hnamer (hsymbols name hname) hcolumn
  have hnames := e.toSql_sqlNames o.namer
  unfold Expr.clause
  cases hextract : o.extractParameters with
  | false =>
      rw [hextract] at hcolumns
      exact sql_piece hnames hcolumns
  | true =>
      rw [hextract] at hcolumns
      refine sql_piece (extract_sqlNames 0 hnames) fun s hs => ?_
      rcases extract_symbols 0 s hs with hs | ⟨n, c, rfl⟩
      · exact hcolumns s hs
      · exact ⟨_, Sql.placeholder_piece n c⟩

/-- **No injection.** However a query is written, an SQL engine reads the
text of its filter to the end without being left in a literal; the
literals it finds are the strings and messages of the clause, in order;
and what is left is harmless code with balanced parentheses and no mark of
a comment. -/
theorem whereClause_scan {o : Options} {text : String} {f : Filter}
    (hnamer : o.namer = none ∨ o.namer = some .columnPath) (hcategory : IsIdent o.categoryField)
    (hfilter : Filter.ofText o text = .ok f) :
    ∃ c? code, clauseText o text = .ok c? ∧ f = Filter.ofClause? c? ∧
      Sql.scan .code f.whereClause.toList = some ⟨clauseTexts c?, code⟩ ∧
      Sql.Balanced code ∧ (∀ ch ∈ code, Sql.isCodeChar o.extractParameters ch = true) ∧
      ∀ mark ∈ Sql.commentMarks, ¬ mark <:+: code := by
  obtain ⟨c?, hclause, rfl⟩ := Filter.ofText_eq_ok_iff.mp hfilter
  obtain ⟨q, hparse, -, hc?⟩ := clauseText_eq_ok_iff.mp hclause
  obtain ⟨code, hpiece⟩ : ∃ code, Sql.Piece o.extractParameters
      (Filter.ofClause? c?).whereClause.toList (clauseTexts c?) code := by
    cases he : q.expr? o.categoryField with
    | none =>
        rw [he] at hc?
        subst hc?
        exact ⟨[], .empty⟩
    | some e =>
        rw [he] at hc?
        subst hc?
        refine Expr.clause_piece hnamer fun s hs => ?_
        rcases SimpleQuery.expr?_symbols_ident hparse he s hs with hs | rfl
        · exact hs
        · exact hcategory
  exact ⟨c?, code, hclause, rfl, hpiece.scan_eq, hpiece.depth 0, hpiece.chars,
    Sql.no_mark_of_isChain hpiece.apart⟩

theorem whereClause_scan_hostile :
    (Options.namer ⟨"event.category", some .columnPath, false⟩ = none ∨
      Options.namer ⟨"event.category", some .columnPath, false⟩ = some .columnPath) ∧
    IsIdent "event.category" ∧
    ∃ f, Filter.ofText ⟨"event.category", some .columnPath, false⟩
        "any where a.b == \"'--\" or length~(c)" = .ok f ∧
      ∃ c? code, clauseText ⟨"event.category", some .columnPath, false⟩
          "any where a.b == \"'--\" or length~(c)" = .ok c? ∧
        f = Filter.ofClause? c? ∧
        Sql.scan .code f.whereClause.toList = some ⟨clauseTexts c?, code⟩ ∧
        Sql.Balanced code ∧ (∀ ch ∈ code, Sql.isCodeChar false ch = true) ∧
        ∀ mark ∈ Sql.commentMarks, ¬ mark <:+: code :=
  have hcategory : IsIdent "event.category" := by decide
  have hparse : parse "any where a.b == \"'--\" or length~(c)" = .ok ⟨.simple ⟨.any,
      some (.logical .or (.comparison .eq (.field ⟨"a.b", false⟩) (.literal (.string "\"'--\"")))
        (.call ⟨.length, true⟩ [.field ⟨"c", false⟩]))⟩, []⟩ := parse_of_finish rfl rfl
  have hfilter : Filter.ofText ⟨"event.category", some .columnPath, false⟩
      "any where a.b == \"'--\" or length~(c)" = .ok
      ⟨"((\"a::b\" = '\\'--') OR throwIf(true, 'Unknown EQL function \\'length~\\''))", [],
        [.unknownFunction "length~"]⟩ := Filter.ofText_of_parse hparse rfl
  ⟨.inr rfl, hcategory, _, hfilter, whereClause_scan (.inr rfl) hcategory hfilter⟩

end EventQuery
