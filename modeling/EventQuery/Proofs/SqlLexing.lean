import EventQuery.Expr.Sql
import Mathlib.Data.List.Chain

/-!
# Reading SQL text back

`Sql.scan` reads a text from left to right the way an SQL engine does. It
tells literals in single quotes, with their escapes resolved, from quoted
identifiers and from the code around them.

`Sql.Piece` says what one stretch of a text contributes: its literals and
its code, where the code has balanced parentheses, only harmless
characters and no mark of a comment. A piece is described independently of
what follows it, so pieces can be put together: side by side with a
separator (`Piece.join`), in parentheses (`Piece.wrap`) and after a word
(`Piece.label`).
-/

namespace EventQuery

namespace Sql

/-! ## Scanning -/

/-- Where in a text the scanner is. -/
inductive Mode where
  | code
  /-- In a literal of which this much has been read. -/
  | literal (text : List Char)
  | identifier

/-- What a text holds: the literals in order, and what is left without
literals and quoted identifiers. -/
structure Scanned where
  literals : List String
  code : List Char

namespace Scanned

def prepend (literals : List String) (code : List Char) (r : Scanned) : Scanned :=
  ⟨literals ++ r.literals, code ++ r.code⟩

@[simp] theorem prepend_nil : prepend [] [] = id := rfl

theorem prepend_prepend (literals literals' : List String) (code code' : List Char) :
    prepend literals code ∘ prepend literals' code' =
      prepend (literals ++ literals') (code ++ code') := by
  funext r
  simp [prepend]

end Scanned

/-- The character that a backslash and a character stand for. -/
def unescape? : Char → Option Char
  | '\\' => some '\\'
  | '\'' => some '\''
  | 'n' => some '\n'
  | 't' => some '\t'
  | 'r' => some '\r'
  | _ => none

/-- Read a text from left to right. It has to end outside of literals and
quoted identifiers. -/
def scan : Mode → List Char → Option Scanned
  | .code, [] => some ⟨[], []⟩
  | .code, '\'' :: s => scan (.literal []) s
  | .code, '"' :: s => scan .identifier s
  | .code, c :: s => (scan .code s).map (.prepend [] [c])
  | .literal _, [] => none
  | .literal text, '\'' :: s => (scan .code s).map (.prepend [String.ofList text] [])
  | .literal text, '\\' :: c :: s =>
    match unescape? c with
    | some d => scan (.literal (text ++ [d])) s
    | none => none
  | .literal text, c :: s => scan (.literal (text ++ [c])) s
  | .identifier, [] => none
  | .identifier, '"' :: '"' :: s => scan .identifier s
  | .identifier, '"' :: s => scan .code s
  | .identifier, _ :: s => scan .identifier s

theorem scan_code_cons {c : Char} (hsingle : c ≠ '\'') (hdouble : c ≠ '"') (s : List Char) :
    scan .code (c :: s) = (scan .code s).map (.prepend [] [c]) := by
  rw [scan] <;> simpa

theorem scan_code_append {text : List Char} (hquotes : ∀ c ∈ text, c ≠ '\'' ∧ c ≠ '"')
    (rest : List Char) :
    scan .code (text ++ rest) = (scan .code rest).map (.prepend [] text) := by
  induction text with
  | nil => simp
  | cons c text ih =>
      obtain ⟨⟨hsingle, hdouble⟩, htext⟩ := List.forall_mem_cons.mp hquotes
      rw [List.cons_append, scan_code_cons hsingle hdouble, ih htext, Option.map_map,
        Scanned.prepend_prepend]
      rfl

/-- One escaped character is read back as that character. -/
theorem scan_escapeChar (text : List Char) (c : Char) (s : List Char) :
    scan (.literal text) (escapeChar c ++ s) = scan (.literal (text ++ [c])) s := by
  unfold escapeChar
  split <;> try rfl
  rename_i hbackslash hquote _ _ _
  rw [List.singleton_append, scan]
  · exact hquote
  · exact fun c' s' hc _ => hbackslash hc

theorem scan_escaped (text body rest : List Char) :
    scan (.literal text) (body.flatMap escapeChar ++ '\'' :: rest) =
      (scan .code rest).map (.prepend [String.ofList (text ++ body)] []) := by
  induction body generalizing text with
  | nil => rw [List.append_nil]; rfl
  | cons c body ih =>
      rw [List.flatMap_cons, List.append_assoc, scan_escapeChar, ih, List.append_assoc]
      rfl

theorem toList_quote_append (s : String) (rest : List Char) :
    (quote s).toList ++ rest = '\'' :: (s.toList.flatMap escapeChar ++ '\'' :: rest) := by
  simp [quote, String.toList_append]

/-- A quoted text is read back as the text. -/
theorem scan_quote (s : String) (rest : List Char) :
    scan .code ((quote s).toList ++ rest) = (scan .code rest).map (.prepend [s] []) := by
  rw [toList_quote_append, scan, scan_escaped, List.nil_append, String.ofList_toList]

theorem scan_identifier {body rest : List Char} (hbody : '"' ∉ body)
    (hrest : rest.head? ≠ some '"') :
    scan .identifier (body ++ '"' :: rest) = scan .code rest := by
  induction body with
  | nil =>
      cases rest with
      | nil => rfl
      | cons c rest =>
          -- Name the right side, or it would be opened too.
          generalize hcode : scan .code (c :: rest) = scanned
          rw [List.nil_append, scan, hcode]
          exact fun s hs => hrest (congrArg List.head? hs)
  | cons c body ih =>
      obtain ⟨hc, hbody⟩ := not_or.mp (mt List.mem_cons.mpr hbody)
      rw [List.cons_append, scan, ih hbody]
      · exact fun s hs _ => hc hs.symm
      · exact fun hs => hc hs.symm

/-! ## Code outside of quotes -/

/-- The characters of code. Braces and the colon belong to placeholders. -/
def isCodeChar (placeholders : Bool) (c : Char) : Bool :=
  c.isAlphanum || "_.@ (),=<>+-*/%".toList.contains c
    || (placeholders && "\x7b\x7d:".toList.contains c)

/-- The depth of parentheses after a text; none where one closes that was
not opened. -/
def depthAfter? : Nat → List Char → Option Nat
  | depth, [] => some depth
  | depth, '(' :: s => depthAfter? (depth + 1) s
  | 0, ')' :: _ => none
  | depth + 1, ')' :: s => depthAfter? depth s
  | depth, _ :: s => depthAfter? depth s

/-- Every parenthesis that opens closes, and none closes that did not
open. -/
def Balanced (s : List Char) : Prop := depthAfter? 0 s = some 0

/-- The characters of keywords and names of functions. -/
def isLabelChar (c : Char) : Bool := c.isAlphanum || c = ' '

/-- What begins or ends a comment. -/
def commentMarks : List (List Char) :=
  ["--".toList, "/*".toList, "*/".toList, "//".toList]

/-- Characters that are in no mark of a comment. -/
def isInert (c : Char) : Bool := c != '-' && c != '/' && c != '*'

/-- Two characters that make no mark of a comment. -/
def Apart (a b : Char) : Prop := [a, b] ∉ commentMarks
deriving Decidable

theorem apart_of_inert_left {a : Char} (h : isInert a = true) (b : Char) : Apart a b := by
  simp only [isInert, Bool.and_eq_true, bne_iff_ne] at h
  simp [Apart, commentMarks, h]

theorem apart_of_inert_right {b : Char} (h : isInert b = true) (a : Char) : Apart a b := by
  simp only [isInert, Bool.and_eq_true, bne_iff_ne] at h
  simp [Apart, commentMarks, h]

theorem depthAfter?_append (depth : Nat) (s s' : List Char) :
    depthAfter? depth (s ++ s') = (depthAfter? depth s).bind (depthAfter? · s') := by
  fun_induction depthAfter? depth s with
  | case1 => rfl
  | case2 depth s ih => rw [List.cons_append, depthAfter?, ih]
  | case3 => rfl
  | case4 depth s ih => rw [List.cons_append, depthAfter?, ih]
  | case5 depth c s hopen hclose hclose' ih =>
      rw [List.cons_append, depthAfter?, ih]
      · exact hopen
      · exact hclose
      · exact hclose'

theorem depthAfter?_of_no_parens {s : List Char} (h : ∀ c ∈ s, c ≠ '(' ∧ c ≠ ')') (depth : Nat) :
    depthAfter? depth s = some depth := by
  induction s with
  | nil => rfl
  | cons c s ih =>
      obtain ⟨⟨hopen, hclose⟩, hs⟩ := List.forall_mem_cons.mp h
      rw [depthAfter?, ih hs] <;> simp_all

/-- Where no two neighbours make a mark, there is none. -/
theorem no_mark_of_isChain {s : List Char} (h : s.IsChain Apart) :
    ∀ mark ∈ commentMarks, ¬ mark <:+: s := by
  intro mark hmark hinside
  have hchain := List.IsChain.infix h hinside
  simp only [commentMarks, List.mem_cons, List.not_mem_nil, or_false] at hmark
  rcases hmark with rfl | rfl | rfl | rfl <;> simp [Apart, commentMarks] at hchain

theorem isChain_of_inert {s : List Char} (h : ∀ c ∈ s, isInert c = true) : s.IsChain Apart := by
  induction s with
  | nil => exact .nil
  | cons c s ih =>
      obtain ⟨hc, hs⟩ := List.forall_mem_cons.mp h
      exact List.isChain_cons.mpr ⟨fun b _ => apart_of_inert_left hc b, ih hs⟩

theorem isCodeChar_of_isLabelChar {placeholders : Bool} {c : Char} (h : isLabelChar c = true) :
    isCodeChar placeholders c = true := by
  rcases Bool.or_eq_true_iff.mp h with h | h
  · simp [isCodeChar, h]
  · simp_all [isCodeChar]

theorem parens_ne_of_isLabelChar {c : Char} (h : isLabelChar c = true) : c ≠ '(' ∧ c ≠ ')' := by
  constructor <;> rintro rfl <;> cases h

theorem inert_of_isLabelChar {c : Char} (h : isLabelChar c = true) :
    isInert c = true := by
  simp only [isInert, Bool.and_eq_true, bne_iff_ne]
  refine ⟨⟨?_, ?_⟩, ?_⟩ <;> rintro rfl <;> cases h

/-- Quotes are no characters of code. -/
theorem quote_ne_of_isCodeChar {placeholders : Bool} {c : Char}
    (h : isCodeChar placeholders c = true) : c ≠ '\'' ∧ c ≠ '"' := by
  constructor <;> rintro rfl <;> cases placeholders <;> simp [isCodeChar] at h

/-! ## Separators -/

/-- A text that may stand between two pieces: code without parentheses and
marks, whose first and last characters are in no mark. -/
structure IsSeparator (s : List Char) : Prop where
  code : s.all (isCodeChar false) = true
  parens : s.all (fun c => c != '(' && c != ')') = true
  apart : s.IsChain Apart
  ne_nil : s ≠ []
  first : s.head?.all isInert = true
  last : s.getLast?.all isInert = true

instance : DecidablePred IsSeparator := fun s =>
  decidable_of_iff (s.all (isCodeChar false) = true ∧ s.all (fun c => c != '(' && c != ')') = true ∧
      s.IsChain Apart ∧ s ≠ [] ∧ s.head?.all isInert = true ∧ s.getLast?.all isInert = true)
    ⟨fun ⟨h₁, h₂, h₃, h₄, h₅, h₆⟩ => ⟨h₁, h₂, h₃, h₄, h₅, h₆⟩,
      fun ⟨h₁, h₂, h₃, h₄, h₅, h₆⟩ => ⟨h₁, h₂, h₃, h₄, h₅, h₆⟩⟩

namespace IsSeparator

variable {s : List Char}

theorem chars (h : IsSeparator s) {placeholders : Bool} :
    ∀ c ∈ s, isCodeChar placeholders c = true := by
  intro c hc
  have hcode := List.all_eq_true.mp h.code c hc
  simp only [isCodeChar, Bool.false_and, Bool.or_false] at hcode
  rw [isCodeChar, hcode, Bool.true_or]

theorem quotes (h : IsSeparator s) : ∀ c ∈ s, c ≠ '\'' ∧ c ≠ '"' :=
  fun c hc => quote_ne_of_isCodeChar (List.all_eq_true.mp h.code c hc)

theorem no_parens (h : IsSeparator s) : ∀ c ∈ s, c ≠ '(' ∧ c ≠ ')' := by
  intro c hc
  simpa using List.all_eq_true.mp h.parens c hc

theorem inert_first (h : IsSeparator s) : ∀ c ∈ s.head?, isInert c = true :=
  (Option.all_eq_true isInert _).mp h.first

theorem inert_last (h : IsSeparator s) : ∀ c ∈ s.getLast?, isInert c = true :=
  (Option.all_eq_true isInert _).mp h.last

end IsSeparator

/-! ## Pieces -/

/-- What a stretch of a text contributes, whatever follows it. A quote
must not follow: after a quoted identifier it would be read as a doubled
one. -/
structure Piece (placeholders : Bool) (text : List Char) (literals : List String)
    (code : List Char) : Prop where
  scan_append : ∀ rest : List Char, rest.head? ≠ some '"' →
    scan .code (text ++ rest) = (scan .code rest).map (.prepend literals code)
  depth : ∀ depth, depthAfter? depth code = some depth
  chars : ∀ c ∈ code, isCodeChar placeholders c = true
  apart : code.IsChain Apart

namespace Piece

variable {p : Bool} {text text' : List Char} {literals literals' : List String}
  {code code' : List Char}

theorem scan_eq (h : Piece p text literals code) : scan .code text = some ⟨literals, code⟩ := by
  have hscan := h.scan_append [] (by simp)
  rw [List.append_nil] at hscan
  simpa [scan, Scanned.prepend] using hscan

theorem empty : Piece p [] [] [] :=
  ⟨fun rest _ => by simp, fun _ => rfl, by simp, .nil⟩

theorem literal (s : String) : Piece p (quote s).toList [s] [] :=
  ⟨fun rest _ => scan_quote s rest, fun _ => rfl, by simp, .nil⟩

theorem identifier {body : List Char} (hbody : '"' ∉ body) :
    Piece p ('"' :: (body ++ ['"'])) [] [] where
  scan_append rest hrest := by
    rw [List.cons_append, List.append_assoc, List.singleton_append, scan,
      scan_identifier hbody hrest]
    simp
  depth _ := rfl
  chars := by simp
  apart := .nil

/-- Code without parentheses. -/
theorem plain (hchars : ∀ c ∈ code, isCodeChar p c = true) (hparens : ∀ c ∈ code, c ≠ '(' ∧ c ≠ ')')
    (hapart : code.IsChain Apart) : Piece p code [] code :=
  ⟨fun rest _ => scan_code_append (fun c hc => quote_ne_of_isCodeChar (hchars c hc)) rest,
    depthAfter?_of_no_parens hparens, hchars, hapart⟩

/-- Two pieces with a separator between them. -/
theorem join {s : List Char} (h : Piece p text literals code) (hs : IsSeparator s)
    (h' : Piece p text' literals' code') :
    Piece p (text ++ (s ++ text')) (literals ++ literals') (code ++ (s ++ code')) where
  scan_append rest hrest := by
    have hhead : (s ++ (text' ++ rest)).head? ≠ some '"' := by
      cases s with
      | nil => exact absurd rfl hs.ne_nil
      | cons c s => simpa using (hs.quotes c List.mem_cons_self).2
    rw [List.append_assoc, List.append_assoc, h.scan_append _ hhead, scan_code_append hs.quotes,
      h'.scan_append rest hrest, Option.map_map, Option.map_map, Scanned.prepend_prepend,
      Scanned.prepend_prepend, List.append_nil, List.append_assoc]
  depth depth := by
    rw [depthAfter?_append, h.depth, Option.bind_some, depthAfter?_append,
      depthAfter?_of_no_parens hs.no_parens, Option.bind_some, h'.depth]
  chars := by
    simp only [List.forall_mem_append]
    exact ⟨h.chars, fun c hc => hs.chars c hc, h'.chars⟩
  apart := by
    refine List.isChain_append.mpr ⟨h.apart, List.isChain_append.mpr ⟨hs.apart, h'.apart, ?_⟩, ?_⟩
    · exact fun a ha b _ => apart_of_inert_left (hs.inert_last a ha) b
    · intro a _ b hb
      rw [List.head?_append_of_ne_nil _ hs.ne_nil] at hb
      exact apart_of_inert_right (hs.inert_first b hb) a

/-- A piece in parentheses. -/
theorem wrap (h : Piece p text literals code) :
    Piece p ('(' :: (text ++ [')'])) literals ('(' :: (code ++ [')'])) where
  scan_append rest _ := by
    rw [List.cons_append, List.append_assoc, List.singleton_append,
      scan_code_cons (by decide) (by decide), h.scan_append _ (by simp),
      scan_code_cons (by decide) (by decide), Option.map_map, Option.map_map,
      Scanned.prepend_prepend, Scanned.prepend_prepend]
    simp
  depth depth := by
    rw [depthAfter?, depthAfter?_append, h.depth]
    rfl
  chars := by
    simp only [List.forall_mem_cons, List.forall_mem_append]
    exact ⟨by cases p <;> rfl, h.chars, by cases p <;> rfl, by simp⟩
  apart := by
    have hopen : isInert '(' = true := rfl
    have hclose : isInert ')' = true := rfl
    refine List.isChain_cons.mpr ⟨fun b _ => apart_of_inert_left hopen b, ?_⟩
    refine List.isChain_append.mpr ⟨h.apart, .singleton _, fun a _ b hb => ?_⟩
    obtain rfl : ')' = b := by simpa using hb
    exact apart_of_inert_right hclose a

/-- A word in front of a piece. -/
theorem label {word : List Char} (hword : ∀ c ∈ word, isLabelChar c = true)
    (h : Piece p text literals code) : Piece p (word ++ text) literals (word ++ code) where
  scan_append rest hrest := by
    have hquotes : ∀ c ∈ word, c ≠ '\'' ∧ c ≠ '"' := fun c hc =>
      quote_ne_of_isCodeChar (isCodeChar_of_isLabelChar (hword c hc) : isCodeChar p c = true)
    rw [List.append_assoc, scan_code_append hquotes, h.scan_append rest hrest, Option.map_map,
      Scanned.prepend_prepend, List.nil_append]
  depth depth := by
    rw [depthAfter?_append,
      depthAfter?_of_no_parens fun c hc => parens_ne_of_isLabelChar (hword c hc)]
    exact h.depth depth
  chars := List.forall_mem_append.mpr ⟨fun c hc => isCodeChar_of_isLabelChar (hword c hc), h.chars⟩
  apart := by
    refine List.isChain_append.mpr
      ⟨isChain_of_inert fun c hc => inert_of_isLabelChar (hword c hc), h.apart, ?_⟩
    intro a ha b _
    exact apart_of_inert_left (inert_of_isLabelChar (hword a (List.mem_of_getLast? ha))) b

end Piece

end Sql

end EventQuery
