import EventQuery.Proofs.DirectReaders
import EventQuery.Proofs.Tokens

/-!
# The grammar as parsing expressions

The grammar of queries once more, as a table with one parsing expression
for each symbol (`Symbol.rule`), and what it means to run an expression on
a text (`Peg.Run`). Nothing is built here but the list of the tokens that
stand for quantities: the counts of pipes and the time span of a sequence.

An expression has one outcome on a text (`Peg.Run.unique`). What it leaves
is an end of the text, and the tokens that it marks stand in the part that
it takes, one after the other (`Peg.Run.placed`).
-/

namespace EventQuery.Grammar

/-! ## Parsing expressions -/

/-- What a token that stands for a quantity is for. -/
inductive QuantityKind where
  | count
  | span
  deriving DecidableEq, Repr

/-- A token that stands for a quantity. -/
structure QuantityToken where
  kind : QuantityKind
  token : SourceToken
  deriving DecidableEq, Repr

inductive Peg where
  /-- This text. -/
  | text (w : String)
  /-- This text in any case. -/
  | word (w : String)
  /-- A character of this kind. -/
  | char (p : Char → Bool)
  /-- One after the other. -/
  | seq (e f : Peg)
  /-- The second only if the first fails. -/
  | alt (e f : Peg)
  /-- As often as it succeeds. -/
  | star (e : Peg)
  /-- Succeeds where the expression fails, and takes nothing. -/
  | not (e : Peg)
  | symbol (x : Symbol)
  /-- What the expression takes is a quantity. -/
  | mark (kind : QuantityKind) (e : Peg)

namespace Peg

def empty : Peg := .text ""

def anyChar : Peg := .char fun _ => true

def opt (e : Peg) : Peg := e.alt empty

def plus (e : Peg) : Peg := e.seq e.star

/-- The first expression that succeeds. -/
def oneOf : List Peg → Peg
  | [] => .not empty
  | [e] => e
  | e :: es => e.alt (oneOf es)

/-- Expressions without gaps between them. -/
def glued : List Peg → Peg
  | [] => empty
  | [e] => e
  | e :: es => e.seq (glued es)

/-- Any text up to where an expression succeeds. -/
def upTo (e : Peg) : Peg := ((Peg.not e).seq anyChar).star

/-! ### Gaps -/

def blanks : Peg := (Peg.char isGapChar).star

def comment : Peg :=
  (glued [.text "/*", upTo (.text "*/"), .text "*/"]).alt
    (glued [.text "//", upTo (oneOf [.text "\n", .text "\r\n", .text "\r"])])

def gap : Peg := blanks.seq (comment.seq blanks).star

/-- Expressions with gaps between them. -/
def row : List Peg → Peg
  | [] => empty
  | [e] => e
  | e :: es => e.seq (gap.seq (row es))

/-- Any number of one expression, with gaps between them. -/
def rowOf (e : Peg) : Peg := opt (e.seq (gap.seq e).star)

/-! ### Words -/

def wordEnd : Peg := .not (.char isWordChar)

/-- One of these words. -/
def words (ws : List String) : Peg := (oneOf (ws.map .word)).seq wordEnd

def digits : Peg := (Peg.char Char.isDigit).plus

end Peg

open Peg

/-! ## The rules -/

/-- Members with commas between them. -/
def Peg.commaRow (e : Peg) : Peg := row [e, rowOf (row [.text ",", e])]

def queryBody : Peg :=
  oneOf [.symbol .sequenceQuery, .symbol .sampleQuery, .symbol .simpleQuery]

def conditionOperand : Peg :=
  oneOf [.symbol .comparison, .symbol .lookup, .symbol .boolean, .symbol .call,
    .symbol .conditionGroup]

def valueOperand : Peg :=
  oneOf [.symbol .null, .symbol .literal, .symbol .call, .symbol .field, .symbol .valueGroup]

def arithSign : Peg :=
  oneOf [.symbol .add, .symbol .subtract, .symbol .multiply, .symbol .divide, .symbol .modulo]

/-- The names of functions, of two that begin alike the longer one first. -/
def callNames : List String :=
  ["add", "between", "cidrMatch", "concat", "divide", "endsWith", "indexOf", "length", "modulo",
   "multiply", "number", "startsWith", "stringContains", "string", "substring", "subtract"]

def reserved : Peg :=
  words ["and", "or", "not", "where", "sequence", "sample", "by", "with", "maxspan", "null", "true",
    "false", "any", "in", "like", "regex"]

def tripleQuoted : Peg :=
  glued [.text "\"\"\"", upTo (.text "\"\"\""), .text "\"\"\""]

def quotedChar : Peg :=
  (glued [.text "\\", anyChar]).alt (glued [.not (oneOf [.text "\"", .text "\\"]), anyChar])

def quoted : Peg := glued [.text "\"", quotedChar.star, .text "\""]

/-- What a symbol of the grammar stands for. -/
def Symbol.rule : Symbol → Peg
  -- the rule for whole texts is run at the start of a text only
  | .query => row [empty, queryBody, rowOf (.symbol .pipe), .symbol .endOfInput]
  | .endOfInput => .not anyChar
  | .simpleQuery =>
    row [.symbol .category, opt (row [.symbol .kwWhere, .symbol .condition])]
  | .sequenceQuery =>
    row [.symbol .kwSequence, opt (.symbol .sequenceBy), opt (.symbol .maxspan),
      .symbol .sequenceStep, rowOf (.symbol .sequenceStep)]
  | .sequenceBy => row [.symbol .kwBy, .symbol .fieldList]
  | .maxspan =>
    row [.symbol .kwWith, .symbol .kwMaxspan, .text "=", .mark .span (.symbol .interval)]
  | .sequenceStep =>
    row [.text "[", .symbol .simpleQuery, .text "]", opt (.symbol .sequenceBy)]
  | .sampleQuery =>
    row [.symbol .kwSample, .symbol .kwBy, .symbol .fieldList, .symbol .sampleStep,
      rowOf (.symbol .sampleStep)]
  | .sampleStep => row [.text "[", .symbol .simpleQuery, .text "]"]
  | .pipe =>
    row [.text "|", oneOf [.symbol .headPipe, .symbol .tailPipe, .symbol .countPipe,
      .symbol .uniquePipe, .symbol .filterPipe, .symbol .sortPipe]]
  | .headPipe => row [.symbol .kwHead, .mark .count (.symbol .number)]
  | .tailPipe => row [.symbol .kwTail, .mark .count (.symbol .number)]
  | .countPipe => .symbol .kwCount
  | .uniquePipe => row [.symbol .kwUnique, .symbol .fieldList]
  | .filterPipe => row [.symbol .kwFilter, .symbol .condition]
  | .sortPipe => row [.symbol .kwSort, .symbol .fieldList]
  | .condition =>
    row [rowOf (.symbol .notOp), conditionOperand,
      rowOf (row [.symbol .logicOp, rowOf (.symbol .notOp), conditionOperand])]
  | .comparison => row [.symbol .value, .symbol .compareOp, .symbol .value]
  | .lookup =>
    row [.symbol .field, opt (.symbol .notOp), .symbol .lookupOp,
      (Peg.symbol .literalList).alt (.symbol .value)]
  | .conditionGroup => row [.text "(", .symbol .condition, .text ")"]
  | .compareOp =>
    oneOf [.text "==", .text "!=", .text ">=", .text "<=", .text ">", .text "<"]
  | .lookupOp =>
    (Peg.text ":").alt
      (glued [oneOf [.word "like", .word "regex", .word "in"], opt (.text "~"), wordEnd])
  | .logicOp => words ["and", "or"]
  | .notOp => words ["not"]
  | .value => row [valueOperand, rowOf (row [arithSign, valueOperand])]
  | .valueGroup => row [.text "(", .symbol .value, .text ")"]
  | .add => .text "+"
  | .subtract => .text "-"
  | .multiply => .text "*"
  | .divide => .text "/"
  | .modulo => .text "%"
  | .call => row [.symbol .callName, .text "(", commaRow (.symbol .value), .text ")"]
  | .callName => glued [words callNames, opt (.text "~")]
  | .category => oneOf [.symbol .any, .symbol .string, .symbol .ident]
  | .any => words ["any"]
  | .field => glued [opt (.symbol .optionalMarker), .symbol .ident]
  | .fieldList => commaRow (.symbol .field)
  | .optionalMarker => .text "?"
  | .literal => oneOf [.symbol .string, .symbol .number, .symbol .boolean]
  | .literalList => row [.text "(", commaRow (.symbol .literal), .text ")"]
  | .null => words ["null"]
  | .boolean => words ["true", "false"]
  | .number =>
    glued [opt (.text "-"), digits, opt (glued [.text ".", digits]),
      opt (glued [.word "e", opt (oneOf [.text "+", .text "-"]), digits]), wordEnd]
  | .interval =>
    glued [digits, oneOf [.text "ms", .text "s", .text "m", .text "h", .text "d"], wordEnd]
  | .string => tripleQuoted.alt quoted
  | .ident => glued [.not reserved, .char isWordStart, (Peg.char isWordChar).star]
  | .kwWhere => words ["where"]
  | .kwSequence => words ["sequence"]
  | .kwSample => words ["sample"]
  | .kwBy => words ["by"]
  | .kwWith => words ["with"]
  | .kwMaxspan => words ["maxspan"]
  | .kwHead => words ["head"]
  | .kwTail => words ["tail"]
  | .kwCount => words ["count"]
  | .kwUnique => words ["unique"]
  | .kwFilter => words ["filter"]
  | .kwSort => words ["sort"]

/-! ## Runs -/

/-- What is left of a text and the quantities that were marked; none for a
failure. -/
abbrev Outcome := Option (List Char × List QuantityToken)

def scanText (w : String) (s : List Char) : Option (List Char) :=
  if w.toList.isPrefixOf s then some (s.drop w.length) else none

def scanTextAnyCase (w : String) (s : List Char) : Option (List Char) :=
  if (w.toList.map Char.toLower).isPrefixOf (s.map Char.toLower) then some (s.drop w.length)
  else none

def scanChar (p : Char → Bool) : List Char → Option (List Char)
  | c :: s => if p c then some s else none
  | [] => none

namespace Peg

/-- The outcome of an expression on a text. -/
inductive Run : Peg → List Char → Outcome → Prop
  | text (w : String) (s : List Char) : Run (.text w) s ((scanText w s).map (·, []))
  | word (w : String) (s : List Char) : Run (.word w) s ((scanTextAnyCase w s).map (·, []))
  | char (p : Char → Bool) (s : List Char) : Run (.char p) s ((scanChar p s).map (·, []))
  | seq_fails {e f : Peg} {s : List Char} (h : Run e s none) : Run (e.seq f) s none
  | seq_stops {e f : Peg} {s mid : List Char} {ts : List QuantityToken}
      (h : Run e s (some (mid, ts))) (h' : Run f mid none) : Run (e.seq f) s none
  | seq {e f : Peg} {s mid rest : List Char} {ts us : List QuantityToken}
      (h : Run e s (some (mid, ts))) (h' : Run f mid (some (rest, us))) :
      Run (e.seq f) s (some (rest, ts ++ us))
  | alt_first {e f : Peg} {s : List Char} {found : List Char × List QuantityToken}
      (h : Run e s (some found)) : Run (e.alt f) s (some found)
  | alt_second {e f : Peg} {s : List Char} {o : Outcome} (h : Run e s none) (h' : Run f s o) :
      Run (e.alt f) s o
  | star_ends {e : Peg} {s : List Char} (h : Run e s none) : Run e.star s (some (s, []))
  | star_goes {e : Peg} {s mid rest : List Char} {ts us : List QuantityToken}
      (h : Run e s (some (mid, ts))) (h' : Run e.star mid (some (rest, us))) :
      Run e.star s (some (rest, ts ++ us))
  | not_holds {e : Peg} {s : List Char} (h : Run e s none) : Run (.not e) s (some (s, []))
  | not_fails {e : Peg} {s : List Char} {found : List Char × List QuantityToken}
      (h : Run e s (some found)) : Run (.not e) s none
  | symbol {x : Symbol} {s : List Char} {o : Outcome} (h : Run x.rule s o) : Run (.symbol x) s o
  | mark_fails {kind : QuantityKind} {e : Peg} {s : List Char} (h : Run e s none) :
      Run (.mark kind e) s none
  | mark {kind : QuantityKind} {e : Peg} {s token rest : List Char} {ts : List QuantityToken}
      (h : Run e s (some (rest, ts))) (hs : s = token ++ rest) :
      Run (.mark kind e) s (some (rest, [⟨kind, s.length, token⟩]))

namespace Run

/-- An expression has one outcome. -/
theorem unique {e : Peg} {s : List Char} {o o' : Outcome} (h : Run e s o) (h' : Run e s o') :
    o = o' := by
  induction h generalizing o' with
  | text | word | char =>
      cases h'
      rfl
  | seq_fails _ ih =>
      cases h' with
      | seq_fails => rfl
      | seq_stops h _ => rfl
      | seq h _ => cases ih h
  | seq_stops _ _ ih ih' =>
      cases h' with
      | seq_fails => rfl
      | seq_stops => rfl
      | seq h h' =>
          cases ih h
          cases ih' h'
  | seq _ _ ih ih' =>
      cases h' with
      | seq_fails h => cases ih h
      | seq_stops h h' =>
          cases ih h
          cases ih' h'
      | seq h h' =>
          cases ih h
          cases ih' h'
          rfl
  | alt_first _ ih =>
      cases h' with
      | alt_first h => exact ih h
      | alt_second h _ => cases ih h
  | alt_second _ _ ih ih' =>
      cases h' with
      | alt_first h => cases ih h
      | alt_second _ h => exact ih' h
  | star_ends _ ih =>
      cases h' with
      | star_ends => rfl
      | star_goes h _ => cases ih h
  | star_goes _ _ ih ih' =>
      cases h' with
      | star_ends h => cases ih h
      | star_goes h h' =>
          cases ih h
          cases ih' h'
          rfl
  | not_holds _ ih =>
      cases h' with
      | not_holds => rfl
      | not_fails h => cases ih h
  | not_fails _ ih =>
      cases h' with
      | not_holds h => cases ih h
      | not_fails => rfl
  | symbol _ ih =>
      cases h' with
      | symbol h => exact ih h
  | mark_fails _ ih =>
      cases h' with
      | mark_fails => rfl
      | mark h _ => cases ih h
  | mark _ hs ih =>
      cases h' with
      | mark_fails h => cases ih h
      | mark h hs' =>
          cases ih h
          cases List.append_cancel_right (hs.symm.trans hs')
          rfl

end Run

/-! ## What a run takes -/

/-- The tokens stand one after the other in a text, before its end `rest`. -/
inductive Placed : List Char → List QuantityToken → List Char → Prop
  | done (before rest : List Char) : Placed (before ++ rest) [] rest
  | next {t : QuantityToken} {ts : List QuantityToken} (before : List Char) {after rest : List Char}
      (hleft : t.token.left = (t.token.text ++ after).length) (h : Placed after ts rest) :
      Placed (before ++ (t.token.text ++ after)) (t :: ts) rest

namespace Placed

variable {s mid rest : List Char} {ts us : List QuantityToken}

theorem refl (s : List Char) : Placed s [] s := .done [] s

theorem extend (h : Placed s ts rest) (before : List Char) : Placed (before ++ s) ts rest := by
  cases h with
  | done before' =>
      rw [← List.append_assoc]
      exact .done _ _
  | next before' hleft h =>
      rw [← List.append_assoc]
      exact .next _ hleft h

theorem trans (h : Placed s ts mid) (h' : Placed mid us rest) : Placed s (ts ++ us) rest := by
  induction h with
  | done before => exact h'.extend before
  | next before hleft _ ih => exact .next before hleft (ih h')

theorem length_le (h : Placed s ts rest) : rest.length ≤ s.length := by
  induction h with
  | done before rest => simp
  | next before hleft _ ih =>
      simp only [List.length_append]
      omega

theorem of_suffix (h : rest <:+ s) : Placed s [] rest := by
  obtain ⟨before, rfl⟩ := h
  exact .done before rest

end Placed

theorem scanText_suffix {w : String} {s rest : List Char} (h : scanText w s = some rest) :
    rest <:+ s := by
  unfold scanText at h
  split at h <;> cases h
  exact List.drop_suffix _ _

theorem scanTextAnyCase_suffix {w : String} {s rest : List Char}
    (h : scanTextAnyCase w s = some rest) : rest <:+ s := by
  unfold scanTextAnyCase at h
  split at h <;> cases h
  exact List.drop_suffix _ _

theorem scanChar_suffix {p : Char → Bool} {s rest : List Char} (h : scanChar p s = some rest) :
    rest <:+ s := by
  unfold scanChar at h
  split at h
  · split at h <;> cases h
    exact List.suffix_cons _ _
  · cases h

/-- What a run marks stands in the part that it takes. -/
theorem Run.placed {e : Peg} {s rest : List Char} {ts : List QuantityToken}
    (h : Run e s (some (rest, ts))) : Placed s ts rest := by
  generalize ho : some (rest, ts) = o at h
  induction h generalizing rest ts with
  | text w s =>
      obtain ⟨_, hscan, heq⟩ := Option.map_eq_some_iff.mp ho.symm
      cases heq
      exact .of_suffix (scanText_suffix hscan)
  | word w s =>
      obtain ⟨_, hscan, heq⟩ := Option.map_eq_some_iff.mp ho.symm
      cases heq
      exact .of_suffix (scanTextAnyCase_suffix hscan)
  | char p s =>
      obtain ⟨_, hscan, heq⟩ := Option.map_eq_some_iff.mp ho.symm
      cases heq
      exact .of_suffix (scanChar_suffix hscan)
  | seq_fails | seq_stops | not_fails | mark_fails => cases ho
  | seq _ _ ih ih' =>
      cases ho
      exact (ih rfl).trans (ih' rfl)
  | star_goes _ _ ih ih' =>
      cases ho
      exact (ih rfl).trans (ih' rfl)
  | alt_first _ ih => exact ih ho
  | alt_second _ _ _ ih' => exact ih' ho
  | star_ends | not_holds =>
      cases ho
      exact .refl _
  | symbol _ ih => exact ih ho
  | @mark kind _ _ token _ _ _ hs _ =>
      cases ho
      subst hs
      exact .next (t := ⟨kind, _, token⟩) [] rfl (.refl _)

theorem length_lt_of_scanText {w : String} {s rest : List Char} (hw : 0 < w.length)
    (h : scanText w s = some rest) : rest.length < s.length := by
  unfold scanText at h
  split at h
  · next hfront =>
      cases h
      have hle := (List.isPrefixOf_iff_prefix.mp hfront).length_le
      rw [String.length_toList] at hle
      rw [List.length_drop]
      omega
  · cases h

theorem length_lt_of_scanTextAnyCase {w : String} {s rest : List Char} (hw : 0 < w.length)
    (h : scanTextAnyCase w s = some rest) : rest.length < s.length := by
  unfold scanTextAnyCase at h
  split at h
  · next hfront =>
      cases h
      have hle := (List.isPrefixOf_iff_prefix.mp hfront).length_le
      rw [List.length_map, List.length_map, String.length_toList] at hle
      rw [List.length_drop]
      omega
  · cases h

/-- The expression takes at least one character. -/
def Consumes (e : Peg) : Prop :=
  ∀ ⦃s rest : List Char⦄ ⦃ts : List QuantityToken⦄, Run e s (some (rest, ts)) →
    rest.length < s.length

namespace Consumes

variable {e f : Peg}

theorem text {w : String} (hw : 0 < w.length) : Consumes (.text w) := by
  intro s rest ts hrun
  obtain ⟨_, hscan, heq⟩ := Option.map_eq_some_iff.mp ((Run.text w s).unique hrun)
  cases heq
  exact length_lt_of_scanText hw hscan

theorem word {w : String} (hw : 0 < w.length) : Consumes (.word w) := by
  intro s rest ts hrun
  obtain ⟨_, hscan, heq⟩ := Option.map_eq_some_iff.mp ((Run.word w s).unique hrun)
  cases heq
  exact length_lt_of_scanTextAnyCase hw hscan

theorem seq_left (h : Consumes e) : Consumes (e.seq f) := by
  intro s rest ts hrun
  cases hrun with
  | seq he hf => exact Nat.lt_of_le_of_lt hf.placed.length_le (h he)

theorem alt (he : Consumes e) (hf : Consumes f) : Consumes (e.alt f) := by
  intro s rest ts hrun
  cases hrun with
  | alt_first h => exact he h
  | alt_second _ h => exact hf h

theorem symbol {x : Symbol} (h : Consumes x.rule) : Consumes (.symbol x) := by
  intro s rest ts hrun
  cases hrun with
  | symbol hrun => exact h hrun

end Consumes

end Peg

end EventQuery.Grammar
