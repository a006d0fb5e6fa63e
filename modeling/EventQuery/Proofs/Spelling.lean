import EventQuery.Proofs.Tokens
import EventQuery.Proofs.Trees

/-!
# Spellings of queries

The texts that spell a query, said without the readers.

- `Lexeme` is one token of a query and `Lexeme.Spelled` says which texts
  stand for it: a word in any case, a number as any run of digits with
  its value, every other token as it is.
- `IsGap` is what may stand between two tokens: blanks, closed block
  comments and line comments with the line end that closes them.
- `Spells` puts the two together. A gap may be empty unless the tokens
  would then run into each other (`Separated`).

Each kind of tree has its tokens in order (`lexemes`), and a text spells
a query if it spells the tokens of the query after a first gap.
-/

namespace EventQuery

open Grammar

/-! ## Tokens and gaps -/

/-- A token of a query. -/
inductive Lexeme where
  /-- A keyword, a word operator or a function name, with its `~`. -/
  | word (w : String)
  /-- A token that is written in one way only. -/
  | text (s : String)
  | count (n : Nat)
  | interval (i : Interval)

/-- The texts of a token. -/
def Lexeme.Spelled : Lexeme → List Char → Prop
  | .word w, s => s.map Char.toLower = w.toList.map Char.toLower
  | .text t, s => s = t.toList
  | .count n, s => Digits.isRun s ∧ Digits.value s = n
  | .interval i, s => ∃ digits, s = digits ++ i.unit.suffix.toList ∧ Digits.isRun digits
      ∧ Digits.value digits = i.value

/-- What may stand between two tokens. The `*/` that closes a block
comment is the first one after its opening. -/
inductive IsGap : List Char → Prop
  | nil : IsGap []
  | blank {c : Char} {gap : List Char} (hc : isGapChar c) (h : IsGap gap) : IsGap (c :: gap)
  | block {body gap : List Char} (hbody : ¬ ['*', '/'] <:+: body ++ ['*']) (h : IsGap gap) :
      IsGap ('/' :: '*' :: (body ++ '*' :: '/' :: gap))
  | line {body gap : List Char} {c : Char} (hbody : ∀ d ∈ body, isLineEnd d = false)
      (hc : isLineEnd c) (h : IsGap gap) : IsGap ('/' :: '/' :: (body ++ c :: gap))

/-- What follows a token does not run into it: no word character after a
word, a number or a `~`, and nothing that makes a division sign the start
of a comment. -/
structure Separated (token follow : List Char) : Prop where
  word : ∀ c ∈ token.getLast?, (isWordChar c || c = '~') → Halts isWordChar follow
  slash : token = ['/'] → Halts (fun c => c = '/' || c = '*') follow

instance (p : Char → Bool) (s : List Char) : Decidable (Halts p s) :=
  decidable_of_iff ((s.head?.all fun c => !p c) = true) (by cases s <;> simp [Halts])

theorem separated_iff {token follow : List Char} : Separated token follow ↔
    ((token.getLast?.any fun c => isWordChar c || c = '~') = true → Halts isWordChar follow)
      ∧ (token = ['/'] → Halts (fun c => c = '/' || c = '*') follow) := by
  constructor
  · rintro ⟨hword, hslash⟩
    refine ⟨fun hany => ?_, hslash⟩
    cases hlast : token.getLast? with
    | none => rw [hlast] at hany; cases hany
    | some c => rw [hlast] at hany; exact hword c hlast hany
  · rintro ⟨hword, hslash⟩
    refine ⟨fun c hc hend => hword ?_, hslash⟩
    rw [Option.mem_def.mp hc]
    exact hend

instance (token follow : List Char) : Decidable (Separated token follow) :=
  decidable_of_iff' _ separated_iff

/-- A text that is the given tokens in order, each with a gap after it. -/
inductive Spells : List Lexeme → List Char → Prop
  | nil : Spells [] []
  | cons {t : Lexeme} {ts : List Lexeme} {token gap after : List Char} (htoken : t.Spelled token)
      (hgap : IsGap gap) (hsep : Separated token (gap ++ after)) (h : Spells ts after) :
      Spells (t :: ts) (token ++ (gap ++ after))

/-! ## The tokens of a tree -/

namespace Lexeme

/-- Parts with commas between them. -/
def separated : List (List Lexeme) → List Lexeme
  | [] => []
  | [part] => part
  | part :: parts => part ++ .text "," :: separated parts

theorem separated_cons (part : List Lexeme) (parts : List (List Lexeme)) :
    separated (part :: parts) = part ++ parts.flatMap (.text "," :: ·) := by
  induction parts generalizing part with
  | nil => simp [separated]
  | cons next parts ih => rw [separated, ih, List.flatMap_cons, List.cons_append]; simp

/-- A part in parentheses. -/
def grouped (part : List Lexeme) : List Lexeme :=
  .text "(" :: (part ++ [.text ")"])

end Lexeme

def Field.lexeme (f : Field) : Lexeme :=
  .text ((if f.optional then "?" else "") ++ f.name)

def Literal.lexeme : Literal → Lexeme
  | .string raw | .number raw | .boolean raw => .text raw

namespace Value

mutual

def lexemes : Value → List Lexeme
  | .null => [.word "null"]
  | .literal l => [l.lexeme]
  | .field f => [f.lexeme]
  | .call name args => .word name.text :: Lexeme.grouped (Lexeme.separated (listLexemes args))
  | .group v => Lexeme.grouped v.lexemes
  | .arith op left right => left.lexemes ++ .text op.token :: right.lexemes

def listLexemes : List Value → List (List Lexeme)
  | [] => []
  | v :: vs => v.lexemes :: listLexemes vs

end

theorem listLexemes_eq_map (vs : List Value) : listLexemes vs = vs.map lexemes := by
  induction vs with
  | nil => rfl
  | cons v vs ih => rw [listLexemes, ih, List.map_cons]

end Value

def LookupTarget.lexemes : LookupTarget → List Lexeme
  | .list items => Lexeme.grouped (Lexeme.separated (items.map fun l => [l.lexeme]))
  | .value v => v.lexemes

def negationLexemes (negated : Bool) : List Lexeme :=
  if negated then [.word "not"] else []

def Condition.lexemes : Condition → List Lexeme
  | .boolean raw => [.text raw]
  | .not c => .word "not" :: c.lexemes
  | .group c => Lexeme.grouped c.lexemes
  | .comparison op left right => left.lexemes ++ .text op.token :: right.lexemes
  | .lookup f negated op target =>
    f.lexeme :: (negationLexemes negated ++ .word op.token :: target.lexemes)
  | .call name args => (Value.call name args).lexemes
  | .notCall name args => .word "not" :: (Value.call name args).lexemes
  | .logical op left right => left.lexemes ++ .word op.token :: right.lexemes

def Category.lexeme : Category → Lexeme
  | .any => .word "any"
  | .name text => .text text
  | .quoted raw => .text raw

namespace SimpleQuery

def lexemes (q : SimpleQuery) : List Lexeme :=
  q.category.lexeme :: (q.condition.toList.flatMap fun c => .word "where" :: c.lexemes)

/-- The query in brackets. -/
def bracketed (q : SimpleQuery) : List Lexeme :=
  .text "[" :: (q.lexemes ++ [.text "]"])

end SimpleQuery

def fieldLexemes (fields : List Field) : List Lexeme :=
  Lexeme.separated (fields.map fun f => [f.lexeme])

/-- A `by` clause, absent without keys. -/
def keyLexemes : List Field → List Lexeme
  | [] => []
  | keys => .word "by" :: fieldLexemes keys

/-- A `with maxspan` clause, absent without a span. -/
def spanLexemes : Option Interval → List Lexeme
  | none => []
  | some i => [.word "with", .word "maxspan", .text "=", .interval i]

def SequenceStep.lexemes (s : SequenceStep) : List Lexeme :=
  s.query.bracketed ++ keyLexemes s.keys

def SequenceQuery.lexemes (q : SequenceQuery Interval) : List Lexeme :=
  .word "sequence" :: (keyLexemes q.keys
    ++ (spanLexemes q.maxspan ++ q.steps.flatMap SequenceStep.lexemes))

def SampleQuery.lexemes (q : SampleQuery) : List Lexeme :=
  .word "sample" :: .word "by" :: (fieldLexemes q.keys ++ q.steps.flatMap SimpleQuery.bracketed)

def Body.lexemes : Body Interval → List Lexeme
  | .simple q => q.lexemes
  | .sequence q => q.lexemes
  | .sample q => q.lexemes

def Pipe.lexemes (p : Pipe Nat) : List Lexeme :=
  .text "|" :: .word p.name :: match p with
    | .head n | .tail n => [.count n]
    | .count => []
    | .unique fields | .sort fields => fieldLexemes fields
    | .filter condition => condition.lexemes

namespace Query

def lexemes (q : Query) : List Lexeme :=
  q.body.lexemes ++ q.pipes.flatMap Pipe.lexemes

/-- A text that spells the query, with a gap before it if one likes. -/
def SpelledBy (q : Query) (text : List Char) : Prop :=
  ∃ gap after, text = gap ++ after ∧ IsGap gap ∧ Spells q.lexemes after

end Query

/-! ## A spelling of every query -/

theorem Digits.exists_isRun (n : Nat) : ∃ s, Digits.isRun s = true ∧ Digits.value s = n := by
  refine ⟨Nat.toDigits 10 n, ?_, ?_⟩
  · have hdigits : (Nat.toDigits 10 n).all Char.isDigit = true := List.all_eq_true.mpr
      fun c hc => Nat.isDigit_of_mem_toDigits (by decide) (by decide) hc
    rw [Digits.isRun, hdigits, Bool.and_true, Bool.not_eq_true', List.isEmpty_eq_false_iff]
    exact Nat.toDigits_ne_nil
  · have hvalue : Nat.ofDigitChars 10 (Nat.toDigits 10 n) 0 = n :=
      Nat.ofDigitChars_toDigits (by decide) (by decide)
    exact hvalue

theorem Lexeme.exists_spelled : ∀ t : Lexeme, ∃ s, t.Spelled s
  | .word w => ⟨w.toList, rfl⟩
  | .text s => ⟨s.toList, rfl⟩
  | .count n => Digits.exists_isRun n
  | .interval i => by
      obtain ⟨digits, hrun, hvalue⟩ := Digits.exists_isRun i.value
      exact ⟨_, digits, rfl, hrun, hvalue⟩

/-- A blank keeps any two tokens apart. -/
theorem separated_blank (token after : List Char) : Separated token (' ' :: after) where
  word _ _ _ := by simp [Halts]; decide
  slash _ := by simp [Halts]

theorem exists_spells (ts : List Lexeme) : ∃ text, Spells ts text := by
  induction ts with
  | nil => exact ⟨[], .nil⟩
  | cons t ts ih =>
      obtain ⟨token, htoken⟩ := t.exists_spelled
      obtain ⟨after, hafter⟩ := ih
      exact ⟨_, .cons htoken (.blank rfl .nil) (separated_blank token after) hafter⟩

theorem Query.exists_spelledBy (q : Query) : ∃ text, q.SpelledBy text := by
  obtain ⟨text, htext⟩ := exists_spells q.lexemes
  exact ⟨text, [], text, rfl, .nil, htext⟩

/-! ## Skipping gaps -/

theorem skipGapFrom_block {s : List Char} : ∀ {body : List Char},
    ¬ ['*', '/'] <:+: body ++ ['*'] →
      skipGapFrom .block (body ++ '*' :: '/' :: s) = skipGapFrom .blank s
  | [], _ => by simp [skipGapFrom]
  | c :: body, h => by
      have htail : ¬ ['*', '/'] <:+: body ++ ['*'] := fun hin => h (List.infix_cons hin)
      rw [List.cons_append, skipGapFrom, skipGapFrom_block htail]
      rintro s' rfl heq
      -- a star before a slash would have closed the comment earlier
      cases body with
      | nil => simp at heq
      | cons d body =>
          obtain rfl : d = '/' := (List.cons.inj heq).1
          exact h ⟨[], body ++ ['*'], by simp⟩

theorem closesComment_append {s : List Char} : ∀ body : List Char,
    closesComment (body ++ '*' :: '/' :: s) = true
  | [] => by simp [closesComment]
  | c :: body => by
      rw [List.cons_append]
      unfold closesComment
      split
      · rfl
      · next heq =>
          obtain ⟨rfl, rfl⟩ := List.cons.inj heq
          exact closesComment_append body
      · next heq => cases heq

theorem skipGapFrom_line {c : Char} {s : List Char} (hc : isLineEnd c = true) :
    ∀ {body : List Char}, (∀ d ∈ body, isLineEnd d = false) →
      skipGapFrom .line (body ++ c :: s) = skipGapFrom .blank s
  | [], _ => by simp [skipGapFrom, hc]
  | d :: body, h => by
      obtain ⟨hd, hbody⟩ := List.forall_mem_cons.mp h
      rw [List.cons_append, skipGapFrom, hd]
      exact skipGapFrom_line hc hbody

theorem skipGap_blank {c : Char} {s : List Char} (hc : isGapChar c = true) :
    skipGap (c :: s) = skipGap s := by
  have hne : c ≠ '/' := by
    rintro rfl
    exact absurd hc (by decide)
  rw [skipGap, skipGapFrom, if_pos hc, skipGap]
  · rintro s' rfl
    exact absurd rfl hne
  · rintro s' rfl
    exact absurd rfl hne

/-- A gap is skipped whole. -/
theorem IsGap.skipGap_append {gap s : List Char} (h : IsGap gap) :
    skipGap (gap ++ s) = skipGap s := by
  induction h with
  | nil => rfl
  | blank hc _ ih => rw [List.cons_append, skipGap_blank hc, ih]
  | block hbody _ ih =>
      simp only [List.cons_append, List.append_assoc]
      rw [skipGap, skipGapFrom, if_pos (closesComment_append _), skipGapFrom_block hbody]
      exact ih
  | line hbody hc _ ih =>
      simp only [List.cons_append, List.append_assoc]
      rw [skipGap, skipGapFrom, skipGapFrom_line hc hbody]
      exact ih

theorem skipGapFrom_length_le (state : GapState) (s : List Char) :
    (skipGapFrom state s).length ≤ s.length := by
  fun_induction skipGapFrom state s <;> grind

theorem skipGap_length_le (s : List Char) : (skipGap s).length ≤ s.length :=
  skipGapFrom_length_le .blank s

end EventQuery
