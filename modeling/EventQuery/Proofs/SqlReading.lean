import EventQuery.Proofs.NoInjection
import EventQuery.Proofs.SpelledTokens
import EventQuery.Proofs.SqlFragment

/-!
# Reading clauses back

The text of a clause determines the clause. Groups, operators, lists and
calls are all written with the same parentheses, and names share their
alphabet with keywords and numerals, so over all trees this is false; it
holds in the SQL fragment, if the symbols are names that are not reserved
and there are no floating-point numbers.

The argument is a reader. `Sql.readExpr` takes an expression off the front
of a text: a quote opens a string, a parenthesis a group, an operation or a
negation, and anything else a token, which is a name with arguments if a
parenthesis follows it. `Sql.readsBack` says that it gives back the tree
that was written, whatever delimiter follows.
-/

namespace EventQuery

open Grammar

namespace Sql

/-! ## The reader -/

/-- The characters of names, keywords and numerals. -/
def isTokenChar (c : Char) : Bool := isWordChar c || c = '-'

/-- The text of a string up to the quote that closes it, with its escapes
resolved, and what is left. -/
def readQuoted : List Char → Option (List Char × List Char)
  | [] => none
  | '\'' :: s => some ([], s)
  | '\\' :: c :: s =>
    match unescape? c with
    | some d => (readQuoted s).map fun (body, rest) => (d :: body, rest)
    | none => none
  | c :: s => (readQuoted s).map fun (body, rest) => (c :: body, rest)

/-- The number that a numeral stands for. -/
def readInt? : List Char → Option Int
  | '-' :: digits => some (-(Nat.ofDigitChars 10 digits 0 : Nat))
  | d :: digits =>
    if d.isDigit then some (Nat.ofDigitChars 10 (d :: digits) 0 : Nat) else none
  | [] => none

/-- What a token without arguments stands for. -/
def atom (token : List Char) : Expr :=
  if token = "NULL".toList then .null
  else if token = "true".toList then .const (.bool true)
  else if token = "false".toList then .const (.bool false)
  else match readInt? token with
    | some n => .const (.int n)
    | none => .symbol (String.ofList token)

/-- The operators, of two that begin alike the longer one first. -/
def binaryOps : List String :=
  ["IS NOT", "IS"] ++ memberships ++ valueOps

/-- An operator and the blank after it. -/
def readOp (s : List Char) : Option (String × List Char) :=
  (binaryOps.find? fun op => (op.toList ++ [' ']).isPrefixOf s).map fun op =>
    (op, s.drop (op.toList ++ [' ']).length)

/-- The message of a fault and the parenthesis after it. -/
def readFault : List Char → Option (Expr × List Char)
  | 't' :: 'r' :: 'u' :: 'e' :: ',' :: ' ' :: '\'' :: s =>
    match readQuoted s with
    | some (message, ')' :: rest) => some (.fault (String.ofList message), rest)
    | _ => none
  | _ => none

section

-- `read` reads the expressions inside; a list has at most `n` items.
variable (read : List Char → Option (Expr × List Char)) (n : Nat)

/-- Expressions separated by commas, and the parenthesis after them. -/
def readItems : Nat → List Char → Option (List Expr × List Char)
  | 0, _ => none
  | n + 1, s =>
    match read s with
    | some (e, ')' :: rest) => some ([e], rest)
    | some (e, ',' :: ' ' :: rest) => (readItems n rest).map fun (es, rest) => (e :: es, rest)
    | _ => none

/-- The rest of an operation after its left operand. -/
def readOperation (left : Expr) (s : List Char) : Option (Expr × List Char) :=
  match readOp s with
  | none => none
  | some (op, s) =>
    if op ∈ memberships then
      match s with
      | '(' :: s =>
        match readItems read n s with
        | some (items, ')' :: rest) => some (.binary op left (.array items), rest)
        | _ => none
      | _ => none
    else
      match read s with
      | some (right, ')' :: rest) => some (.binary op left right, rest)
      | _ => none

/-- What begins a negation. -/
def notMark : List Char := ['N', 'O', 'T', ' ']

/-- What follows an opening parenthesis. -/
def readParens (s : List Char) : Option (Expr × List Char) :=
  if notMark.isPrefixOf s then
    match read (s.drop notMark.length) with
    | some (e, ')' :: rest) => some (.unary "NOT" [e], rest)
    | _ => none
  else
    match read s with
    | some (e, ')' :: rest) => some (.group e, rest)
    | some (left, ' ' :: rest) => readOperation read n left rest
    | _ => none

/-- A token, with arguments if a parenthesis follows it. -/
def readToken (s : List Char) : Option (Expr × List Char) :=
  match s.dropWhile isTokenChar with
  | '(' :: rest =>
    if s.takeWhile isTokenChar = "throwIf".toList then readFault rest
    else (readItems read n rest).map fun (args, rest) =>
      (.call (String.ofList (s.takeWhile isTokenChar)) args, rest)
  | rest => some (atom (s.takeWhile isTokenChar), rest)

end

/-- An expression of at most `n` nodes. -/
def readExpr : Nat → List Char → Option (Expr × List Char)
  | 0, _ => none
  | _ + 1, '\'' :: s =>
    (readQuoted s).map fun (body, rest) => (.string (String.ofList body), rest)
  | n + 1, '(' :: s => readParens (readExpr n) n s
  | n + 1, s => readToken (readExpr n) n s

/-! ## Strings and tokens -/

theorem readQuoted_escapeChar (c : Char) (s : List Char) :
    readQuoted (escapeChar c ++ s) = (readQuoted s).map fun (body, rest) => (c :: body, rest) := by
  unfold escapeChar
  split <;> try rfl
  rename_i hbackslash hquote _ _ _
  rw [List.singleton_append, readQuoted]
  · exact hquote
  · exact fun c' s' hc _ => hbackslash hc

theorem readQuoted_escaped (body rest : List Char) :
    readQuoted (body.flatMap escapeChar ++ '\'' :: rest) = some (body, rest) := by
  induction body with
  | nil => rfl
  | cons c body ih =>
      rw [List.flatMap_cons, List.append_assoc, readQuoted_escapeChar, ih]
      rfl

/-- What may follow an expression. -/
def Delimited (rest : List Char) : Prop := ∀ c ∈ rest.head?, c ∈ [' ', ')', ',']

theorem Delimited.halts {rest : List Char} (h : Delimited rest) : Halts isTokenChar rest := by
  have hchars : [' ', ')', ','].all (!isTokenChar ·) = true := by decide
  intro c hc
  simpa using List.all_eq_true.mp hchars c (h c hc)

theorem delimited_cons {c : Char} (h : c ∈ [' ', ')', ',']) (rest : List Char) :
    Delimited (c :: rest) := by
  intro d hd
  obtain rfl : c = d := Option.some.inj hd
  exact h

/-- A text that starts with a character of tokens is read as a token. -/
theorem readExpr_of_token {token : List Char} (hne : token ≠ [])
    (htoken : ∀ c ∈ token, isTokenChar c = true) (n : Nat) (s : List Char) :
    readExpr (n + 1) (token ++ s) = readToken (readExpr n) n (token ++ s) := by
  obtain ⟨c, token, rfl⟩ := List.exists_cons_of_ne_nil hne
  have hc := htoken c List.mem_cons_self
  rw [List.cons_append, readExpr]
  · rintro s' heq
    rw [(List.cons.inj heq).1] at hc
    cases hc
  · rintro s' heq
    rw [(List.cons.inj heq).1] at hc
    cases hc

theorem readExpr_atom {token rest : List Char} (hne : token ≠ [])
    (htoken : ∀ c ∈ token, isTokenChar c = true) (hrest : Delimited rest) (n : Nat) :
    readExpr (n + 1) (token ++ rest) = some (atom token, rest) := by
  rw [readExpr_of_token hne htoken, readToken, dropWhile_run htoken hrest.halts,
    takeWhile_run htoken hrest.halts]
  split
  · exact absurd (hrest '(' rfl) (by decide)
  · rfl

theorem isTokenChar_of_isWordChar {c : Char} (h : isWordChar c = true) : isTokenChar c = true := by
  rw [isTokenChar, h, Bool.true_or]

/-! ### Numerals and names -/

theorem readInt?_toDigits (n : Nat) : readInt? (Nat.toDigits 10 n) = some (n : Int) := by
  have hvalue : Nat.ofDigitChars 10 (Nat.toDigits 10 n) 0 = n :=
    Nat.ofDigitChars_toDigits (by decide) (by decide)
  have hdigits : ∀ c ∈ Nat.toDigits 10 n, c.isDigit = true :=
    fun c hc => Nat.isDigit_of_mem_toDigits (by decide) (by decide) hc
  obtain ⟨d, digits, heq⟩ := List.exists_cons_of_ne_nil (Nat.toDigits_ne_nil (n := n) (b := 10))
  rw [heq] at hvalue hdigits ⊢
  have hd := hdigits d List.mem_cons_self
  rw [readInt?, if_pos hd, hvalue]
  rintro rfl
  cases hd

theorem readInt?_toString (n : Int) : readInt? (toString n).toList = some n := by
  rw [toList_toString_int]
  cases n with
  | ofNat n => exact readInt?_toDigits n
  | negSucc n =>
      have hneg : decide (Int.negSucc n < 0) = true := decide_eq_true (Int.negSucc_lt_zero n)
      have hvalue : Nat.ofDigitChars 10 (Nat.toDigits 10 (n + 1)) 0 = n + 1 :=
        Nat.ofDigitChars_toDigits (by decide) (by decide)
      rw [hneg]
      change some (-((Nat.ofDigitChars 10 (Nat.toDigits 10 (n + 1)) 0 : Nat) : Int)) = _
      rw [hvalue]
      rfl

/-- Neither a keyword nor a truth value is a numeral. -/
theorem atom_of_readInt? {token : List Char} {n : Int} (h : readInt? token = some n) :
    atom token = .const (.int n) := by
  have hnot : ∀ word, readInt? word = none → token ≠ word := by
    rintro word hword rfl
    rw [hword] at h
    cases h
  rw [atom, if_neg (hnot _ rfl), if_neg (hnot _ rfl), if_neg (hnot _ rfl), h]

theorem atom_symbol {name : String} (h : IsIdent name) : atom name.toList = .symbol name := by
  have hfree : ∀ word : String, lowerToken word ∈ reservedWords → name.toList ≠ word.toList := by
    intro word hword heq
    rw [String.toList_inj.mp heq] at h
    exact h.free hword
  have hint : readInt? name.toList = none := by
    have hword := h.word
    cases hname : name.toList with
    | nil => rfl
    | cons c s =>
        rw [hname] at hword
        have hdigit := Bool.or_eq_false_iff.mp (isWordStart_not_digit hword.1)
        rw [readInt?, hdigit.1, if_neg Bool.false_ne_true]
        rintro rfl
        cases hdigit.2
  rw [atom, if_neg (hfree _ (by decide)), if_neg (hfree _ (by decide)),
    if_neg (hfree _ (by decide)), hint]
  exact congrArg Expr.symbol (String.ofList_toList)

/-- An expression that is written as one token. -/
structure IsAtom (e : Expr) : Prop where
  ne_nil : e.sql.toList ≠ []
  chars : ∀ c ∈ e.sql.toList, isTokenChar c = true
  ne_not : e.sql.toList ≠ "NOT".toList
  atom_eq : atom e.sql.toList = e

theorem isAtom_null : IsAtom .null :=
  ⟨by decide, List.all_eq_true.mp rfl, by decide, rfl⟩

theorem isAtom_bool (b : Bool) : IsAtom (.const (.bool b)) := by
  cases b <;> exact ⟨by decide, List.all_eq_true.mp rfl, by decide, rfl⟩

theorem isAtom_int (n : Int) : IsAtom (.const (.int n)) where
  ne_nil heq := by
    have hread := readInt?_toString n
    rw [show (toString n).toList = [] from heq] at hread
    cases hread
  chars c hc := by
    rw [show (Expr.const (.int n)).sql.toList = _ from toList_toString_int n] at hc
    rcases List.mem_append.mp hc with hsign | hdigit
    · unfold Binary64.signText at hsign
      split at hsign
      · rw [List.mem_singleton.mp hsign]
        rfl
      · cases hsign
    · exact isTokenChar_of_isWordChar (isWordChar_of_mem_toDigits hdigit)
  ne_not heq := by
    have hread := readInt?_toString n
    rw [show (toString n).toList = "NOT".toList from heq] at hread
    cases hread
  atom_eq := atom_of_readInt? (readInt?_toString n)

theorem isAtom_symbol {name : String} (h : IsIdent name) : IsAtom (.symbol name) where
  ne_nil heq := by
    have hword := h.word
    rw [show name.toList = [] from heq] at hword
    exact hword
  chars c hc := isTokenChar_of_isWordChar (h.word.isWordChar c hc)
  ne_not heq := by
    rw [show name = "NOT" from String.toList_inj.mp heq] at h
    exact h.free (by decide)
  atom_eq := atom_symbol h

theorem IsAtom.readExpr_eq {e : Expr} (h : IsAtom e) {rest : List Char} (hrest : Delimited rest)
    (n : Nat) : readExpr (n + 1) (e.sql.toList ++ rest) = some (e, rest) := by
  rw [readExpr_atom h.ne_nil h.chars hrest, h.atom_eq]

/-! ## Operators, calls and lists -/

/-- A token that is not the word for negation is not taken for it. -/
theorem not_notMark {token s : List Char} (htoken : ∀ c ∈ token, isTokenChar c = true)
    (hs : Halts isTokenChar s) (hne : token ≠ "NOT".toList) :
    notMark.isPrefixOf (token ++ s) = false := by
  rw [Bool.eq_false_iff, Ne, List.isPrefixOf_iff_prefix]
  rintro ⟨s', heq⟩
  have hword : ∀ c ∈ "NOT".toList, isTokenChar c = true := List.all_eq_true.mp rfl
  have hblank : Halts isTokenChar (' ' :: s') := (delimited_cons (by decide) s').halts
  refine hne ?_
  calc token = (token ++ s).takeWhile isTokenChar := (takeWhile_run htoken hs).symm
    _ = ("NOT".toList ++ ' ' :: s').takeWhile isTokenChar := by rw [← heq]; rfl
    _ = "NOT".toList := takeWhile_run hword hblank

theorem readOp_append {op : String} (hop : op ∈ binaryOps) {s : List Char}
    (hs : notMark.isPrefixOf s = false) : readOp (op.toList ++ ' ' :: s) = some (op, s) := by
  have hfind : binaryOps.find? (fun op' => (op'.toList ++ [' ']).isPrefixOf (op.toList ++ ' ' :: s))
      = some op := by
    simp only [binaryOps, memberships, valueOps, List.cons_append, List.nil_append, List.mem_cons,
      List.not_mem_nil, or_false] at hop
    rcases hop with rfl | rfl | rfl | rfl | rfl | rfl | rfl | rfl | rfl | rfl | rfl | rfl | rfl |
      rfl | rfl | rfl | rfl | rfl | rfl
    case inr.inl =>
      -- here the longer operator is ruled out by what follows the shorter one
      have hlong : ("IS NOT".toList ++ [' ']).isPrefixOf ("IS".toList ++ ' ' :: s) = false := hs
      rw [show binaryOps = "IS NOT" :: binaryOps.tail from rfl, List.find?_cons_of_neg]
      · rfl
      · exact Bool.eq_false_iff.mp hlong
    all_goals rfl
  rw [readOp, hfind]
  simp

theorem mem_functions_of_arity? {name : String} {arity : Arity} (h : arity? name = some arity) :
    name ∈ functions := by
  unfold arity? at h
  split at h
  case h_13 => cases h
  all_goals decide

/-- The name of a function is a token, but neither a negation nor a
fault. -/
theorem functions_areTokens : ∀ name ∈ functions, name.toList ≠ [] ∧
    name.toList.all isTokenChar = true ∧ name.toList ≠ "NOT".toList ∧
      name.toList ≠ "throwIf".toList := by
  decide

theorem halts_paren (s : List Char) : Halts isTokenChar ('(' :: s) := by
  intro c hc
  rw [← Option.some.inj hc]
  rfl

theorem readExpr_call {name : String} (hname : name ∈ functions) (n : Nat) (s : List Char) :
    readExpr (n + 1) (name.toList ++ '(' :: s) =
      (readItems (readExpr n) n s).map fun (args, rest) => (.call name args, rest) := by
  obtain ⟨hne, hchars, -, hfault⟩ := functions_areTokens name hname
  rw [List.all_eq_true] at hchars
  rw [readExpr_of_token hne hchars, readToken, dropWhile_run hchars (halts_paren s),
    takeWhile_run hchars (halts_paren s)]
  simp only [if_neg hfault, String.ofList_toList]

theorem readItems_listSql {read : List Char → Option (Expr × List Char)} {es : List Expr}
    (hne : es ≠ [])
    (hread : ∀ e ∈ es, ∀ rest, Delimited rest → read (e.sql.toList ++ rest) = some (e, rest))
    {n : Nat} (hn : es.length ≤ n) (rest : List Char) :
    readItems read n ((Expr.listSql es).toList ++ ')' :: rest) = some (es, rest) := by
  induction es generalizing n with
  | nil => exact absurd rfl hne
  | cons e es ih =>
      obtain ⟨hhead, htail⟩ := List.forall_mem_cons.mp hread
      obtain ⟨n, rfl⟩ : ∃ m, n = m + 1 :=
        Nat.exists_eq_add_one.mpr (Nat.lt_of_lt_of_le (Nat.succ_pos _) hn)
      cases es with
      | nil =>
          have hlast := hhead (')' :: rest) (delimited_cons (by decide) rest)
          rw [Expr.listSql, readItems, hlast]
          rfl
      | cons e' es =>
          have htext : (Expr.listSql (e :: e' :: es)).toList ++ ')' :: rest =
              e.sql.toList ++ ',' :: ' ' :: ((Expr.listSql (e' :: es)).toList ++ ')' :: rest) := by
            rw [Expr.toList_listSql_cons_cons]
            simp
          have htail := ih (List.cons_ne_nil e' es) htail (Nat.le_of_succ_le_succ hn)
          rw [htext, readItems, hhead _ (delimited_cons (by decide) _)]
          change (readItems read n _).map _ = _
          rw [htail]
          rfl

/-- Every function takes an argument. -/
theorem ne_nil_of_arity? {name : String} {arity : Arity} {args : List Expr}
    (hname : arity? name = some arity) (hcount : arity.accepts args.length = true) :
    args ≠ [] := by
  rintro rfl
  have hnone : ∀ name ∈ functions, ((arity? name).any fun arity => arity.accepts 0) = false := by
    decide
  have hsome := hnone name (mem_functions_of_arity? hname)
  rw [hname] at hsome
  exact absurd (hsome.symm.trans hcount) Bool.false_ne_true

/-! ## Reading a tree back -/

/-- A tree whose text determines it: an expression of the fragment over
names that are not reserved, without floating-point numbers. -/
structure Legible (e : Expr) : Prop where
  fragment : e.SqlFragment
  symbols : ∀ name ∈ e.symbols, IsIdent name
  floats : ∀ x, Const.float x ∉ e.consts

theorem Legible.part {e e' : Expr} (h : Legible e) (hfragment : e'.SqlFragment)
    (hsymbols : e'.symbols ⊆ e.symbols) (hconsts : e'.consts ⊆ e.consts) : Legible e' where
  fragment := hfragment
  symbols name hname := h.symbols name (hsymbols hname)
  floats x hx := h.floats x (hconsts hx)

theorem Legible.members {e : Expr} {es : List Expr} (h : Legible e)
    (hfragment : ∀ m ∈ es, m.SqlFragment) (hsymbols : Expr.listSymbols es ⊆ e.symbols)
    (hconsts : Expr.listConsts es ⊆ e.consts) : ∀ m ∈ es, Legible m := by
  intro m hm
  refine h.part (hfragment m hm) (fun s hs => hsymbols ?_) (fun c hc => hconsts ?_)
  · exact Expr.mem_listSymbols.mpr ⟨m, hm, hs⟩
  · exact Expr.mem_listConsts.mpr ⟨m, hm, hc⟩

theorem Legible.not_notMark {e : Expr} (h : Legible e) {rest : List Char}
    (hrest : Halts isTokenChar rest) : notMark.isPrefixOf (e.sql.toList ++ rest) = false := by
  obtain ⟨hfragment, hsymbols, hfloats⟩ := h
  have hatom : ∀ {e : Expr}, IsAtom e → notMark.isPrefixOf (e.sql.toList ++ rest) = false :=
    fun h => Sql.not_notMark h.chars hrest h.ne_not
  cases hfragment with
  | const c =>
      cases c with
      | string s =>
          change notMark.isPrefixOf ((quote s).toList ++ rest) = false
          rw [toList_quote_append]
          rfl
      | int n => exact hatom (isAtom_int n)
      | float x => exact absurd (List.mem_singleton_self _) (hfloats x)
      | bool b => exact hatom (isAtom_bool b)
  | symbol name => exact hatom (isAtom_symbol (hsymbols name (List.mem_singleton_self _)))
  | null => exact hatom isAtom_null
  | fault message =>
      rw [Expr.toList_sql_fault]
      rfl
  | group h =>
      rw [Expr.toList_sql_group]
      rfl
  | binary | nullTest | membership =>
      rw [Expr.toList_sql_binary]
      rfl
  | not =>
      rw [Expr.toList_sql_unary]
      rfl
  | call hname hcount hargs =>
      obtain ⟨-, hchars, hne, -⟩ := functions_areTokens _ (mem_functions_of_arity? hname)
      rw [Expr.toList_sql_call, List.append_assoc]
      exact Sql.not_notMark (List.all_eq_true.mp hchars) (halts_paren _) hne

section

variable {read : List Char → Option (Expr × List Char)} {n : Nat} {rest : List Char}

theorem readParens_group {e : Expr} (h : Legible e)
    (hread : read (e.sql.toList ++ ')' :: rest) = some (e, ')' :: rest)) :
    readParens read n (e.sql.toList ++ ')' :: rest) = some (.group e, rest) := by
  have hmark := h.not_notMark (delimited_cons (c := ')') (by decide) rest).halts
  rw [readParens, hmark, if_neg Bool.false_ne_true, hread]
  rfl

theorem readParens_operation {left : Expr} (h : Legible left)
    (hread : read (left.sql.toList ++ ' ' :: rest) = some (left, ' ' :: rest)) :
    readParens read n (left.sql.toList ++ ' ' :: rest) = readOperation read n left rest := by
  have hmark := h.not_notMark (delimited_cons (c := ' ') (by decide) rest).halts
  rw [readParens, hmark, if_neg Bool.false_ne_true, hread]
  rfl

theorem readOperation_binary {op : String} {left right : Expr} (hop : op ∈ binaryOps)
    (hother : op ∉ memberships) (h : Legible right)
    (hread : read (right.sql.toList ++ ')' :: rest) = some (right, ')' :: rest)) :
    readOperation read n left (op.toList ++ ' ' :: (right.sql.toList ++ ')' :: rest)) =
      some (.binary op left right, rest) := by
  have hmark := h.not_notMark (delimited_cons (c := ')') (by decide) rest).halts
  rw [readOperation, readOp_append hop hmark]
  change (if op ∈ memberships then _ else _) = _
  rw [if_neg hother, hread]
  rfl

theorem readOperation_membership {op : String} {left : Expr} {items : List Expr}
    (hop : op ∈ memberships)
    (hread : readItems read n ((Expr.listSql items).toList ++ ')' :: ')' :: rest) =
      some (items, ')' :: rest)) :
    readOperation read n left
        (op.toList ++ ' ' :: '(' :: ((Expr.listSql items).toList ++ ')' :: ')' :: rest)) =
      some (.binary op left (.array items), rest) := by
  have hbinary : op ∈ binaryOps := List.mem_append_left _ (List.mem_append_right _ hop)
  rw [readOperation, readOp_append hbinary rfl]
  change (if op ∈ memberships then _ else _) = _
  rw [if_pos hop]
  change (match readItems read n _ with | some (items, ')' :: rest) => _ | _ => _) = _
  rw [hread]
  rfl

end

theorem readExpr_string (n : Nat) (s : String) (rest : List Char) :
    readExpr (n + 1) ((Expr.string s).sql.toList ++ rest) = some (.string s, rest) := by
  rw [show (Expr.string s).sql = quote s from rfl, toList_quote_append, readExpr,
    readQuoted_escaped]
  exact congrArg (fun s => some (Expr.string s, rest)) String.ofList_toList

theorem readExpr_fault (n : Nat) (message : String) (rest : List Char) :
    readExpr (n + 1) ((Expr.fault message).sql.toList ++ rest) = some (.fault message, rest) := by
  have hchars : ∀ c ∈ "throwIf".toList, isTokenChar c = true := List.all_eq_true.mp rfl
  have htext : (Expr.fault message).sql.toList ++ rest = "throwIf".toList ++
      '(' :: ("true, '".toList ++ (message.toList.flatMap escapeChar ++ '\'' :: ')' :: rest)) := by
    have hquote := toList_quote_append message (')' :: rest)
    rw [Expr.toList_sql_fault]
    simp [hquote]
  rw [htext, readExpr_of_token (by decide) hchars, readToken, dropWhile_run hchars (halts_paren _),
    takeWhile_run hchars (halts_paren _)]
  change (match readQuoted (message.toList.flatMap escapeChar ++ _) with
    | some (message, ')' :: rest) => some (Expr.fault (String.ofList message), rest)
    | _ => none) = _
  rw [readQuoted_escaped]
  exact congrArg (fun s => some (Expr.fault s, rest)) String.ofList_toList

/-- Trees of at most `n` nodes are read back. -/
def ReadsBack (n : Nat) : Prop :=
  ∀ e : Expr, Legible e → e.nodeCount ≤ n → ∀ rest, Delimited rest →
    readExpr n (e.sql.toList ++ rest) = some (e, rest)

namespace ReadsBack

variable {n : Nat} (ih : ReadsBack n) {rest : List Char}

include ih

theorem items {es : List Expr} (hes : ∀ e ∈ es, Legible e) (hne : es ≠ [])
    (hn : Expr.listNodeCount es ≤ n) :
    readItems (readExpr n) n ((Expr.listSql es).toList ++ ')' :: rest) = some (es, rest) := by
  refine readItems_listSql hne (fun e he => ?_)
    (Nat.le_trans (Expr.length_le_listNodeCount es) hn) rest
  exact ih e (hes e he) (Nat.le_trans (Expr.nodeCount_le_of_mem he) hn)

theorem group {e : Expr} (he : Legible e) (hn : e.nodeCount ≤ n) :
    readExpr (n + 1) ((Expr.group e).sql.toList ++ rest) = some (.group e, rest) := by
  have htext : (Expr.group e).sql.toList ++ rest = '(' :: (e.sql.toList ++ ')' :: rest) := by
    rw [Expr.toList_sql_group]
    simp
  rw [htext, readExpr]
  exact readParens_group he (ih e he hn _ (delimited_cons (by decide) rest))

theorem operation {op : String} {left right : Expr} (hl : Legible left) (hn : left.nodeCount ≤ n) :
    readExpr (n + 1) ((Expr.binary op left right).sql.toList ++ rest) =
      readOperation (readExpr n) n left
        (op.toList ++ ' ' :: (right.sql.toList ++ ')' :: rest)) := by
  have htext : (Expr.binary op left right).sql.toList ++ rest = '(' :: (left.sql.toList ++
      ' ' :: (op.toList ++ ' ' :: (right.sql.toList ++ ')' :: rest))) := by
    rw [Expr.toList_sql_binary]
    simp
  rw [htext, readExpr]
  exact readParens_operation hl (ih left hl hn _ (delimited_cons (by decide) _))

theorem binary {op : String} {left right : Expr} (hop : op ∈ binaryOps) (hother : op ∉ memberships)
    (hl : Legible left) (hr : Legible right) (hn : left.nodeCount + right.nodeCount ≤ n) :
    readExpr (n + 1) ((Expr.binary op left right).sql.toList ++ rest) =
      some (.binary op left right, rest) := by
  rw [ih.operation hl (by omega)]
  exact readOperation_binary hop hother hr
    (ih right hr (by omega) _ (delimited_cons (by decide) rest))

theorem membership {op : String} {left : Expr} {items : List Expr} (hop : op ∈ memberships)
    (hl : Legible left) (hitems : ∀ e ∈ items, Legible e) (hne : items ≠ [])
    (hn : left.nodeCount + Expr.listNodeCount items ≤ n) :
    readExpr (n + 1) ((Expr.binary op left (.array items)).sql.toList ++ rest) =
      some (.binary op left (.array items), rest) := by
  have htext : (Expr.array items).sql.toList ++ ')' :: rest =
      '(' :: ((Expr.listSql items).toList ++ ')' :: ')' :: rest) := by
    rw [Expr.toList_sql_array]
    simp
  rw [ih.operation hl (by omega), htext]
  exact readOperation_membership hop (ih.items hitems hne (by omega))

theorem not {e : Expr} (he : Legible e) (hn : e.nodeCount ≤ n) :
    readExpr (n + 1) ((Expr.unary "NOT" [e]).sql.toList ++ rest) =
      some (.unary "NOT" [e], rest) := by
  have htext : (Expr.unary "NOT" [e]).sql.toList ++ rest =
      '(' :: (notMark ++ (e.sql.toList ++ ')' :: rest)) := by
    rw [Expr.toList_sql_unary]
    simp [notMark, Expr.listSql]
  rw [htext, readExpr, readParens, if_pos (List.isPrefixOf_iff_prefix.mpr (List.prefix_append _ _)),
    List.drop_left, ih e he hn _ (delimited_cons (by decide) rest)]
  rfl

theorem call {name : String} {args : List Expr} (hname : name ∈ functions) (hne : args ≠ [])
    (hargs : ∀ e ∈ args, Legible e) (hn : Expr.listNodeCount args ≤ n) :
    readExpr (n + 1) ((Expr.call name args).sql.toList ++ rest) = some (.call name args, rest) := by
  have htext : (Expr.call name args).sql.toList ++ rest =
      name.toList ++ '(' :: ((Expr.listSql args).toList ++ ')' :: rest) := by
    rw [Expr.toList_sql_call]
    simp
  rw [htext, readExpr_call hname, ih.items hargs hne hn]
  rfl

end ReadsBack

-- The induction is on the bound, so that one hypothesis serves operands, items and arguments.
theorem readsBack (n : Nat) : ReadsBack n := by
  induction n with
  | zero => exact fun e _ hn => absurd e.nodeCount_pos (Nat.not_lt.mpr hn)
  | succ n ih =>
      intro e h hn rest hrest
      have hfragment := h.fragment
      cases hfragment with
      | const c =>
          cases c with
          | string s => exact readExpr_string n s rest
          | int i => exact (isAtom_int i).readExpr_eq hrest n
          | float x => exact absurd (List.mem_singleton_self _) (h.floats x)
          | bool b => exact (isAtom_bool b).readExpr_eq hrest n
      | symbol name =>
          exact (isAtom_symbol (h.symbols name (List.mem_singleton_self _))).readExpr_eq hrest n
      | null => exact isAtom_null.readExpr_eq hrest n
      | fault message => exact readExpr_fault n message rest
      | group he =>
          simp only [Expr.nodeCount] at hn
          exact ih.group (h.part he (List.Subset.refl _) (List.Subset.refl _)) (by omega)
      | @binary op left right hop hnull hl hr =>
          simp only [Expr.nodeCount] at hn
          have hother : ∀ op ∈ valueOps, op ∉ memberships := by decide
          exact ih.binary (List.mem_append_right _ hop) (hother op hop)
            (h.part hl (List.subset_append_left _ _) (List.subset_append_left _ _))
            (h.part hr (List.subset_append_right _ _) (List.subset_append_right _ _)) (by omega)
      | @nullTest op left hop hl =>
          rw [Expr.nodeCount] at hn
          have hother : ∀ op ∈ nullTests, op ∈ binaryOps ∧ op ∉ memberships := by decide
          exact ih.binary (hother op hop).1 (hother op hop).2
            (h.part hl (List.subset_append_left _ _) (List.subset_append_left _ _))
            (h.part .null (List.nil_subset _) (List.nil_subset _)) (by omega)
      | membership hop hl hne hitems =>
          simp only [Expr.nodeCount] at hn
          exact ih.membership hop
            (h.part hl (List.subset_append_left _ _) (List.subset_append_left _ _))
            (h.members hitems (List.subset_append_right _ _) (List.subset_append_right _ _)) hne
            (by omega)
      | @not e he =>
          simp only [Expr.nodeCount, Expr.listNodeCount] at hn
          have hpart := h.members (List.forall_mem_singleton.mpr he) (List.Subset.refl _)
            (List.Subset.refl _)
          exact ih.not (hpart e (List.mem_singleton_self e)) (by omega)
      | call hname hcount hargs =>
          simp only [Expr.nodeCount] at hn
          exact ih.call (mem_functions_of_arity? hname) (ne_nil_of_arity? hname hcount)
            (h.members hargs (List.Subset.refl _) (List.Subset.refl _)) (by omega)

/-- Two legible trees with one text are one tree. -/
theorem sql_eq_iff_of_legible {e e' : Expr} (h : Legible e) (h' : Legible e') :
    e.sql = e'.sql ↔ e = e' := by
  refine ⟨fun heq => ?_, congrArg Expr.sql⟩
  have hread := readsBack (max e.nodeCount e'.nodeCount) e h (Nat.le_max_left _ _) [] nofun
  have hread' := readsBack (max e.nodeCount e'.nodeCount) e' h' (Nat.le_max_right _ _) [] nofun
  rw [heq, hread'] at hread
  exact (Prod.mk.inj (Option.some.inj hread)).1.symm

/-- A quote inside a string does not end it, so one item that looks like
two is told apart from two. -/
theorem sql_eq_iff_of_legible_items :
    (Expr.binary "IN" (.symbol "a") (.array [.string "x', 'y"])).sql ≠
      (Expr.binary "IN" (.symbol "a") (.array [.string "x", .string "y"])).sql := by
  have hone : Legible (.binary "IN" (.symbol "a") (.array [.string "x', 'y"])) :=
    ⟨.membership (by decide) (.symbol "a") (by decide) (List.forall_mem_singleton.mpr (.const _)),
      by decide, fun x hx => nomatch List.mem_singleton.mp hx⟩
  have htwo : Legible (.binary "IN" (.symbol "a") (.array [.string "x", .string "y"])) :=
    ⟨.membership (by decide) (.symbol "a") (by decide)
      (List.forall_mem_cons.mpr ⟨.const _, List.forall_mem_singleton.mpr (.const _)⟩),
      by decide, fun x hx => by simp [Expr.consts, Expr.listConsts, Expr.string] at hx⟩
  exact mt (sql_eq_iff_of_legible hone htwo).mp (by simp)

end Sql

end EventQuery
