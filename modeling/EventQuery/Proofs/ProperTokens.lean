import EventQuery.Proofs.SpelledTokens

/-!
# Tokens that start no gap

A reader skips the gap before a token and then has to stand at the token.
That needs tokens whose texts start with neither a blank nor a comment
(`Lexeme.Proper`). All tokens of a well-formed query are such
(`Query.WellFormed.allProper`); the division sign is one because no sign
follows it within the token.
-/

namespace EventQuery

open Grammar

/-! ## Kinds of tokens -/

/-- No word and no number starts a gap. -/
theorem proper_of_isWordChar {t : Lexeme}
    (h : ∀ s, t.Spelled s → ∃ c rest, s = c :: rest ∧ isWordChar c = true) : t.Proper := by
  intro s hs
  obtain ⟨c, rest, rfl, hc⟩ := h s hs
  refine ⟨c, rest, rfl, Bool.eq_false_iff.mpr fun hgap => ?_, ?_⟩
  · simp only [isGapChar, Bool.or_eq_true, decide_eq_true_eq] at hgap
    rcases hgap with ((rfl | rfl) | rfl) | rfl <;> cases hc
  · rintro rfl
    cases hc

theorem exists_cons_of_startsWord {s : List Char} (h : startsWord s = true) :
    ∃ c rest, s = c :: rest ∧ isWordChar c = true := by
  cases s with
  | nil => cases h
  | cons c rest => exact ⟨c, rest, rfl, isWordChar_of_isWordStart h⟩

theorem proper_word {w : String} (hw : startsWord w.toList = true) : (Lexeme.word w).Proper := by
  refine proper_of_isWordChar fun s hs => exists_cons_of_startsWord ?_
  exact (startsWord_of_map_toLower hs).trans hw

/-- A sign that starts no gap, or a division sign alone. -/
theorem proper_text {w : String} {c : Char} {rest : List Char} (hw : w.toList = c :: rest)
    (hc : isGapChar c = false) (hslash : c = '/' → rest = []) : (Lexeme.text w).Proper := by
  intro s hs
  obtain rfl : s = w.toList := hs
  exact ⟨c, rest, hw, hc, hslash⟩

theorem proper_of_startsWord {w : String} (hw : startsWord w.toList = true) :
    (Lexeme.text w).Proper := by
  refine proper_of_isWordChar fun s hs => exists_cons_of_startsWord ?_
  obtain rfl : s = w.toList := hs
  exact hw

theorem proper_run {t : Lexeme} (h : ∀ s, t.Spelled s → ∃ digits rest, s = digits ++ rest
    ∧ Digits.isRun digits = true) : t.Proper := by
  refine proper_of_isWordChar fun s hs => ?_
  obtain ⟨digits, rest, rfl, hrun⟩ := h s hs
  obtain ⟨d, ds, rfl, hd⟩ := exists_digit_of_isRun hrun
  exact ⟨d, _, rfl, isWordChar_of_isDigit d hd⟩

theorem proper_string {raw : String} (h : IsStringToken raw.toList) : (Lexeme.text raw).Proper := by
  obtain ⟨rest, hraw⟩ := h.head
  exact proper_text hraw rfl fun heq => absurd heq (by decide)

theorem Literal.WellFormed.proper {l : Literal} (h : l.WellFormed) : l.lexeme.Proper := by
  cases l with
  | string raw => exact proper_string h
  | number raw =>
      obtain ⟨c, rest, hraw, hc⟩ := IsNumberToken.head h
      rcases hc with hc | rfl
      · refine proper_of_isWordChar fun s hs => ?_
        obtain rfl : s = raw.toList := hs
        exact ⟨c, rest, hraw, isWordChar_of_isDigit c hc⟩
      · exact proper_text hraw rfl fun heq => absurd heq (by decide)
  | boolean raw => exact proper_of_startsWord (IsBooleanToken.startsWord h)

theorem Field.WellFormed.proper {f : Field} (h : f.WellFormed) : f.lexeme.Proper := by
  obtain ⟨name, optional⟩ := f
  cases optional with
  | true =>
      have hlist : ((if true = true then "?" else "") ++ name).toList = '?' :: name.toList := by
        simp
      exact proper_text hlist rfl fun heq => absurd heq (by decide)
  | false =>
      rw [Field.lexeme, if_neg (by simp), String.empty_append]
      exact proper_of_startsWord (IsIdent.startsWord h)

/-! ## Parts of queries -/

/-- All tokens of a part are proper. -/
def AllProper (ts : List Lexeme) : Prop := ∀ t ∈ ts, t.Proper

namespace AllProper

variable {t : Lexeme} {ts us : List Lexeme}

theorem nil : AllProper [] := by simp [AllProper]

theorem cons (h : t.Proper) (hs : AllProper ts) : AllProper (t :: ts) :=
  List.forall_mem_cons.mpr ⟨h, hs⟩

theorem append (h : AllProper ts) (hs : AllProper us) : AllProper (ts ++ us) :=
  List.forall_mem_append.mpr ⟨h, hs⟩

theorem sign {w : String} {c : Char} (hw : w.toList = [c]) (hc : isGapChar c = false)
    (hs : AllProper ts) : AllProper (.text w :: ts) :=
  cons (proper_text hw hc fun _ => rfl) hs

theorem word {w : String} (hw : startsWord w.toList = true) (hs : AllProper ts) :
    AllProper (.word w :: ts) :=
  cons (proper_word hw) hs

theorem flatMap {α : Type} {f : α → List Lexeme} {xs : List α} (h : ∀ x ∈ xs, AllProper (f x)) :
    AllProper (xs.flatMap f) := by
  intro t ht
  obtain ⟨x, hx, ht⟩ := List.mem_flatMap.mp ht
  exact h x hx t ht

theorem separated {α : Type} {f : α → List Lexeme} {xs : List α}
    (h : ∀ x ∈ xs, AllProper (f x)) : AllProper (Lexeme.separated (xs.map f)) := by
  cases xs with
  | nil => exact nil
  | cons x xs =>
      obtain ⟨hx, hxs⟩ := List.forall_mem_cons.mp h
      rw [List.map_cons, Lexeme.separated_cons, List.flatMap_map]
      exact hx.append (.flatMap fun y hy => .sign rfl rfl (hxs y hy))

theorem grouped (h : AllProper ts) : AllProper (Lexeme.grouped ts) :=
  .sign rfl rfl (h.append (.sign rfl rfl .nil))

end AllProper

theorem CallName.startsWord_text (name : CallName) : startsWord name.text.toList = true := by
  obtain ⟨b, insensitive⟩ := name
  rw [CallName.toList_text]
  exact startsWord_append b.startsWord_name _

theorem Value.WellFormed.allProper {v : Value} (h : v.WellFormed) : AllProper v.lexemes := by
  induction v with
  | null => exact .word rfl .nil
  | literal l => exact .cons (Literal.WellFormed.proper h) .nil
  | field f => exact .cons (Field.WellFormed.proper h) .nil
  | call name args ih =>
      obtain ⟨-, -, hall⟩ := h
      rw [Value.allWellFormed_iff] at hall
      rw [Value.lexemes, Value.listLexemes_eq_map]
      exact .word name.startsWord_text (.grouped (.separated fun v hv => ih v hv (hall v hv)))
  | group v ih => exact (ih h).grouped
  | arith op left right ihl ihr =>
      refine (ihl h.1).append (.cons ?_ (ihr h.2.1))
      cases op <;> exact proper_text rfl rfl fun _ => rfl

theorem LookupTarget.WellFormed.allProper {target : LookupTarget} (h : target.WellFormed) :
    AllProper target.lexemes := by
  cases target with
  | list items => exact .grouped (.separated fun l hl => .cons (h.2 l hl).proper .nil)
  | value v => exact h.1.allProper

theorem proper_lookupOp (op : LookupOp) : (Lexeme.word op.token).Proper := by
  cases op with
  | colon =>
      intro s hs
      obtain rfl := colon_spelled hs
      exact ⟨':', [], rfl, rfl, fun _ => rfl⟩
  | _ => exact proper_word rfl

theorem Condition.WellFormed.allProper {c : Condition} (h : c.WellFormed) :
    AllProper c.lexemes := by
  induction c with
  | boolean raw => exact .cons (proper_of_startsWord (IsBooleanToken.startsWord h)) .nil
  | not c ih => exact .word rfl (ih h.1)
  | group c ih => exact (ih h).grouped
  | comparison op left right =>
      refine h.1.allProper.append (.cons ?_ h.2.allProper)
      cases op <;> exact proper_text rfl rfl fun heq => absurd heq (by decide)
  | lookup f negated op target =>
      refine .cons h.1.proper (.append ?_ (.cons (proper_lookupOp op) h.2.allProper))
      cases negated with
      | true => exact .word rfl .nil
      | false => exact .nil
  | call name args => exact Value.WellFormed.allProper h
  | notCall name args => exact .word rfl (Value.WellFormed.allProper h)
  | logical op left right ihl ihr =>
      refine (ihl h.1).append (.word ?_ (ihr h.2.1))
      cases op <;> rfl

theorem SimpleQuery.WellFormed.allProper {q : SimpleQuery} (h : q.WellFormed) :
    AllProper q.lexemes := by
  refine .cons ?_ (.flatMap fun c hc => .word rfl (h.2 c (Option.mem_toList.mp hc)).allProper)
  obtain ⟨hcategory, -⟩ := h
  revert hcategory
  cases q.category with
  | any => exact fun _ => proper_word rfl
  | name text => exact fun h => proper_of_startsWord (IsIdent.startsWord h)
  | quoted raw => exact proper_string

theorem SimpleQuery.WellFormed.allProper_bracketed {q : SimpleQuery} (h : q.WellFormed) :
    AllProper q.bracketed :=
  .sign rfl rfl (h.allProper.append (.sign rfl rfl .nil))

theorem allProper_fields {fields : List Field} (h : ∀ f ∈ fields, f.WellFormed) :
    AllProper (fieldLexemes fields) :=
  .separated fun f hf => .cons (h f hf).proper .nil

theorem allProper_keys {keys : List Field} (h : ∀ f ∈ keys, f.WellFormed) :
    AllProper (keyLexemes keys) := by
  cases keys with
  | nil => exact .nil
  | cons f keys => exact .word rfl (allProper_fields h)

theorem allProper_span (span : Option Interval) : AllProper (spanLexemes span) := by
  cases span with
  | none => exact .nil
  | some i =>
      refine .word rfl (.word rfl (.sign rfl rfl (.cons (proper_run fun s hs => ?_) .nil)))
      obtain ⟨digits, rfl, hrun, -⟩ := hs
      exact ⟨digits, _, rfl, hrun⟩

theorem Body.WellFormed.allProper {b : Body Interval}
    (h : b.WellFormed fun i => i.millis?.isSome) : AllProper b.lexemes := by
  cases b with
  | simple q => exact SimpleQuery.WellFormed.allProper h
  | sequence q =>
      refine .word rfl ((allProper_keys h.keys).append
        ((allProper_span q.maxspan).append (.flatMap fun x hx => ?_)))
      obtain ⟨hq, hkeys⟩ := h.steps x hx
      exact hq.allProper_bracketed.append (allProper_keys hkeys)
  | sample q =>
      exact .word rfl (.word rfl ((allProper_fields h.keys.2).append
        (.flatMap fun x hx => (h.steps x hx).allProper_bracketed)))

theorem proper_count (n : Nat) : (Lexeme.count n).Proper :=
  proper_run fun s hs => ⟨s, [], (List.append_nil s).symm, hs.1⟩

theorem Pipe.name_word (p : Pipe Nat) : p.name.toList.all isWordChar = true
    ∧ lowerToken p.name = p.name ∧ startsWord p.name.toList = true := by
  cases p <;> simp only [Pipe.name] <;> exact ⟨rfl, rfl, rfl⟩

theorem Pipe.WellFormed.allProper {p : Pipe Nat} (h : p.WellFormed (· < Quantity.limit)) :
    AllProper p.lexemes := by
  obtain ⟨-, -, hname⟩ := p.name_word
  refine .sign rfl rfl (.word hname ?_)
  cases p with
  | head n => exact .cons (proper_count n) .nil
  | tail n => exact .cons (proper_count n) .nil
  | count => exact .nil
  | unique fields => exact allProper_fields h.2
  | filter c => exact Condition.WellFormed.allProper h
  | sort fields => exact allProper_fields h.2

theorem Query.WellFormed.allProper {q : Query} (h : q.WellFormed) : AllProper q.lexemes :=
  h.body.allProper.append (.flatMap fun p hp => (h.pipes p hp).allProper)

end EventQuery
