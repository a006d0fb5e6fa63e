import EventQuery.Proofs.PegTokens

/-!
# Readers and their rules

The readers of the grammar take what its rules take. A reader skips the gap
before a part and a rule the gap between two parts, so what they leave of a
text may differ by a gap (`AgreeAt`). `Agree` collects this for all texts
up to a length; it has one lemma for each combinator of readers, paired
with the form of expression that stands for it, and then one for each rule.

Values and conditions nest. A step of the induction reads what is inside a
group at a smaller bound, because the bracket before it is a character
(`Agree.bind_consuming`).

The main statement is `query_agree`: on a whole text the reader of queries
and the rule for queries fail together, or succeed together, and then the
tokens that the rule marks are the quantities of the query that is read.
-/

namespace EventQuery.Grammar

open Reader Peg

variable {α β : Type}

/-! ## Without gaps -/

/-- The reader takes exactly what the expression takes. -/
def Follows (p : Reader α) (e : Peg) : Prop :=
  Runs e fun s => (p.read s).map Prod.snd

namespace Follows

variable {p q : Reader α} {e e' : Peg}

theorem read_fails {s : List Char} (h : Follows p e) (hp : p.read s = none) : Run e s none :=
  h.fails (by rw [hp]; rfl)

theorem read_takes {s : List Char} {found : α × List Char} (h : Follows p e)
    (hp : p.read s = some found) : Run e s (some (found.2, [])) :=
  h.takes (by rw [hp]; rfl)

theorem token {x : Symbol} {scan : List Char → Option (α × List Char)} (h : x.Scans scan) :
    Follows (token x scan) (.symbol x) :=
  Runs.symbol h

theorem char {c : Char} {w : String} (hw : w.toList = [c]) : Follows (char c) (.text w) := by
  refine (runs_text_singleton hw).of_eq fun s => ?_
  cases s <;> rfl

theorem named {x : Symbol} (h : Follows p x.rule) : Follows (named x p) (.symbol x) :=
  Runs.symbol h

theorem bind {f : α → Reader β} (h : Follows p e) (hf : ∀ a, Follows (f a) e') :
    Follows (p >>= f) (e.seq e') := by
  intro s
  show Run _ s ((((p >>= f).read s).map Prod.snd).map (·, []))
  rw [read_bind]
  cases hp : p.read s with
  | none => exact .seq_fails (h.read_fails hp)
  | some found =>
      rw [Option.bind_some]
      cases hq : (f found.1).read found.2 with
      | none => exact .seq_stops (h.read_takes hp) ((hf found.1).read_fails hq)
      | some found' => exact .seq (h.read_takes hp) ((hf found.1).read_takes hq)

theorem map {g : α → β} (h : Follows p e) : Follows (p >>= fun a => pure (g a)) e := by
  refine Runs.of_eq h fun s => ?_
  rw [read_bind]
  cases p.read s <;> rfl

theorem orElse (h : Follows p e) (h' : Follows q e') : Follows (p <|> q) (e.alt e') := by
  refine (Runs.alt h h').of_eq fun s => ?_
  rw [read_orElse]
  cases p.read s <;> rfl

theorem optional (h : Follows p e) : Follows p.optional e.opt := by
  refine (Runs.opt h).of_eq fun s => ?_
  cases hp : p.read s with
  | none => rw [read_optional_none hp]; rfl
  | some found => rw [read_optional_some hp]; rfl

end Follows

/-! ## Up to gaps -/

/-- A reader on one text and an expression on another either fail both, or
both succeed and leave the same up to a gap. -/
inductive AgreeAt (p : Reader α) (P : α → List QuantityToken → Prop) (e : Peg)
    (s s' : List Char) : Prop
  | fails (hp : p.read s = none) (he : Run e s' none)
  | takes {a : α} {rest rest' : List Char} {ts : List QuantityToken}
      (hp : p.read s = some (a, rest)) (he : Run e s' (some (rest', ts)))
      (hgap : skipGap rest' = skipGap rest) (ha : P a ts)

/-- The reader and the expression agree where fewer than `n` characters are
left. The expression starts at the text itself (`id`) or after the gap
before it (`skipGap`). -/
def Agree (start : List Char → List Char) (n : Nat) (p : Reader α)
    (P : α → List QuantityToken → Prop) (e : Peg) : Prop :=
  ∀ s, (start s).length < n → AgreeAt p P e s (start s)

/-- The marks of an expression are a function of what is read. -/
def Marks (m : α → List QuantityToken) (a : α) (ts : List QuantityToken) : Prop := ts = m a

/-- Nothing is marked. -/
abbrev NoMarks : α → List QuantityToken → Prop := Marks fun _ => []

theorem Follows.agree {p : Reader α} {e : Peg} (h : Follows p e) (n : Nat) :
    Agree id n p NoMarks e := by
  intro s _
  cases hp : p.read s with
  | none => exact .fails hp (h.read_fails hp)
  | some found => exact .takes hp (h.read_takes hp) rfl rfl

namespace Agree

variable {p q : Reader α} {P : α → List QuantityToken → Prop} {Q : β → List QuantityToken → Prop}
  {m : α → List QuantityToken} {e e' : Peg} {start : List Char → List Char} {n k : Nat}

theorem named {x : Symbol} (h : Agree start n p P x.rule) :
    Agree start n (named x p) P (.symbol x) := by
  intro s hs
  cases h s hs with
  | fails hp he => exact .fails hp (.symbol he)
  | takes hp he hgap ha => exact .takes hp (.symbol he) hgap ha

theorem imp {P' : α → List QuantityToken → Prop} (h : Agree start n p P e)
    (hP : ∀ a ts, P a ts → P' a ts) : Agree start n p P' e := by
  intro s hs
  cases h s hs with
  | fails hp he => exact .fails hp he
  | takes hp he hgap ha => exact .takes hp he hgap (hP _ _ ha)

theorem mono (h : Agree start n p P e) (hk : k ≤ n) : Agree start k p P e :=
  fun s hs => h s (Nat.lt_of_lt_of_le hs hk)

theorem congr (h : Agree start n p P e) (hpq : ∀ s, q.read s = p.read s) : Agree start n q P e := by
  intro s hs
  cases h s hs with
  | fails hp he => exact .fails ((hpq s).trans hp) he
  | takes hp he hgap ha => exact .takes ((hpq s).trans hp) he hgap ha

theorem spaced (h : Agree id n p P e) : Agree skipGap n (spaced p) P e := by
  intro s hs
  cases h (skipGap s) hs with
  | fails hp he => exact .fails hp he
  | takes hp he hgap ha => exact .takes hp he hgap ha

/-- A second gap changes nothing. -/
theorem spaced_again (h : Agree skipGap n p P e) : Agree skipGap n (Grammar.spaced p) P e := by
  intro s hs
  have hagree := h (skipGap s)
  rw [skipGap_idem] at hagree
  cases hagree hs with
  | fails hp he => exact .fails hp he
  | takes hp he hgap ha => exact .takes hp he hgap ha

theorem map {g : α → β} (h : Agree start n p P e) (hg : ∀ a ts, P a ts → Q (g a) ts) :
    Agree start n (p >>= fun a => pure (g a)) Q e := by
  intro s hs
  cases h s hs with
  | fails hp he => exact .fails (by rw [read_bind, hp]; rfl) he
  | takes hp he hgap ha => exact .takes (by rw [read_bind, hp]; rfl) he hgap (hg _ _ ha)

theorem orElse (h : Agree start n p P e) (h' : Agree start n q P e') :
    Agree start n (p <|> q) P (e.alt e') := by
  intro s hs
  cases h s hs with
  | takes hp he hgap ha => exact .takes (by rw [read_orElse, hp]; rfl) (.alt_first he) hgap ha
  | fails hp he =>
      have hread : (p <|> q).read s = q.read s := by rw [read_orElse, hp]; rfl
      cases h' s hs with
      | fails hq he' => exact .fails (hread.trans hq) (.alt_second he he')
      | takes hq he' hgap ha => exact .takes (hread.trans hq) (.alt_second he he') hgap ha

/-- One after the other with a gap between them. The length of what the
first leaves bounds the second. -/
theorem bind_of_length {f : α → Reader β} (h : Agree start n p (Marks m) e)
    (hlen : ∀ s rest ts, Run e s (some (rest, ts)) → s.length < n → rest.length < k)
    (hf : ∀ a, Agree skipGap k (f a) (fun b us => Q b (m a ++ us)) e') :
    Agree start n (p >>= f) Q (e.seq (gap.seq e')) := by
  intro s hs
  cases h s hs with
  | fails hp he => exact .fails (by rw [read_bind, hp]; rfl) (.seq_fails he)
  | @takes a rest rest' ts hp he hgap ha =>
      cases ha
      have hread : (p >>= f).read s = (f a).read rest := by rw [read_bind, hp]; rfl
      have hskip : Run gap rest' (some (skipGap rest, [])) := runs_gap.takes (by rw [hgap])
      have hrest : (skipGap rest).length < k := by
        rw [← hgap]
        exact Nat.lt_of_le_of_lt (skipGap_length_le rest') (hlen _ _ _ he hs)
      cases hf a rest hrest with
      | fails hq he' =>
          exact .fails (hread.trans hq) (.seq_stops he (.seq_stops hskip he'))
      | takes hq he' hgap' hb =>
          exact .takes (hread.trans hq) (.seq he (.seq hskip he')) hgap' hb

theorem bind {f : α → Reader β} (h : Agree start n p (Marks m) e)
    (hf : ∀ a, Agree skipGap n (f a) (fun b us => Q b (m a ++ us)) e') :
    Agree start n (p >>= f) Q (e.seq (gap.seq e')) :=
  h.bind_of_length (fun _ _ _ hrun hs => Nat.lt_of_le_of_lt hrun.placed.length_le hs) hf

/-- After a character the bound goes down. -/
theorem bind_consuming {f : α → Reader β} (h : Agree start (n + 1) p (Marks m) e)
    (he : Consumes e) (hf : ∀ a, Agree skipGap n (f a) (fun b us => Q b (m a ++ us)) e') :
    Agree start (n + 1) (p >>= f) Q (e.seq (gap.seq e')) :=
  h.bind_of_length (fun _ _ _ hrun hs => Nat.lt_of_lt_of_le (he hrun) (Nat.le_of_lt_succ hs)) hf

theorem optional (h : Agree skipGap n p (Marks m) e) :
    Agree skipGap n p.optional (Marks fun o => o.elim [] m) e.opt := by
  intro s hs
  cases h s hs with
  | fails hp he =>
      have hempty : Run Peg.empty (skipGap s) (some (skipGap s, [])) := Runs.empty.takes rfl
      exact .takes (read_optional_none hp) (.alt_second he hempty) (skipGap_idem s) rfl
  | takes hp he hgap ha => exact .takes (read_optional_some hp) (.alt_first he) hgap ha

theorem optional_noMarks (h : Agree skipGap n p NoMarks e) :
    Agree skipGap n p.optional NoMarks e.opt := by
  refine h.optional.imp fun o _ hts => ?_
  cases o <;> exact hts

/-! ### Repetition -/

/-- The items after the first. The bound on their number is never reached,
because each item takes a character. -/
theorem star_run (h : Agree skipGap n p (Marks m) e) (he : Consumes e) {s t : List Char}
    (hst : skipGap t = skipGap s) (hk : (skipGap s).length < k) (hn : (skipGap s).length < n) :
    ∃ rest, Run (gap.seq e).star t (some (rest, (readMany p k s).1.flatMap m)) ∧
      skipGap rest = skipGap (readMany p k s).2 := by
  induction k generalizing s t with
  | zero => omega
  | succ k ih =>
      have hskip : Run gap t (some (skipGap s, [])) := runs_gap.takes (by rw [hst])
      cases h s hn with
      | fails hp hrun =>
          rw [readMany, hp]
          exact ⟨t, .star_ends (.seq_stops hskip hrun), hst⟩
      | @takes a mid mid' ts hp hrun hgap ha =>
          cases ha
          have hmid : (skipGap mid).length < (skipGap s).length := by
            rw [← hgap]
            exact Nat.lt_of_le_of_lt (skipGap_length_le mid') (he hrun)
          -- the reader goes on at `mid` and the expression at `mid'`
          obtain ⟨rest, hstar, hrest⟩ := ih hgap (by omega) (by omega)
          rw [readMany, hp]
          exact ⟨rest, .star_goes (.seq hskip hrun) hstar, hrest⟩

theorem many (h : Agree skipGap n p (Marks m) e) (he : Consumes e) :
    Agree skipGap n p.many (Marks (·.flatMap m)) (rowOf e) := by
  intro s hs
  have hread : p.many.read s = some (readMany p (s.length + 1) s) := rfl
  rw [readMany] at hread
  cases h s hs with
  | fails hp hrun =>
      have hempty : Run Peg.empty (skipGap s) (some (skipGap s, [])) := Runs.empty.takes rfl
      rw [hp] at hread
      exact .takes hread (.alt_second (.seq_fails hrun) hempty) (skipGap_idem s) rfl
  | @takes a mid mid' ts hp hrun hgap ha =>
      cases ha
      have hmid : (skipGap mid).length < (skipGap s).length := by
        rw [← hgap]
        exact Nat.lt_of_le_of_lt (skipGap_length_le mid') (he hrun)
      have hle := skipGap_length_le s
      obtain ⟨rest, hstar, hrest⟩ := h.star_run he (k := s.length) hgap (by omega) (by omega)
      rw [hp] at hread
      exact .takes hread (.alt_first (.seq hrun hstar)) hrest rfl

theorem many_noMarks (h : Agree skipGap n p NoMarks e) (he : Consumes e) :
    Agree skipGap n p.many NoMarks (rowOf e) :=
  (h.many he).imp fun _ _ hts => hts.trans (List.flatMap_eq_nil_iff.mpr fun _ _ => rfl)

/-- At least one item. -/
theorem many1 {next : Reader α} (hfirst : Agree start n p NoMarks e)
    (hnext : Agree skipGap n next NoMarks e') (he : Consumes e') :
    Agree start n (many1 p next) NoMarks (row [e, rowOf e']) :=
  hfirst.bind fun _ => (hnext.many_noMarks he).map fun _ _ h => h

theorem commaSeparated (h : Agree id n p NoMarks e) :
    Agree id n (commaSeparated p) NoMarks (commaRow e) := by
  have hcomma := (Follows.char (c := ',') (w := ",") rfl).agree n
  exact h.many1 (hcomma.spaced.bind fun _ => h.spaced) (Consumes.text (by decide)).seq_left

end Agree

/-! ## Tokens, fields and literals -/

theorem keyword_follows {x : Symbol} {w : String} (hrule : x.rule = words [w])
    (hw : w.toList.all isWordChar = true) (hlow : lowerToken w = w) :
    Follows (keyword x w) (.symbol x) :=
  (Follows.token (scans_keyword hrule hw hlow)).map

theorem field_follows : Follows field (.symbol .field) :=
  .named <| (Follows.token scans_optionalMarker).optional.bind fun _ =>
    (Follows.token scans_ident).map

theorem literal_follows : Follows literal (.symbol .literal) :=
  .named <| (Follows.token scans_string).map.orElse <|
    (Follows.token scans_number).map.orElse (Follows.token scans_boolean).map

/-- A rule that opens with a text takes a character. -/
theorem consumes_of_text {x : Symbol} {w : String} {e : Peg} (hrule : x.rule = (Peg.text w).seq e)
    (hw : 0 < w.length) : Consumes (.symbol x) :=
  .symbol (hrule ▸ (Consumes.text hw).seq_left)

theorem category_follows : Follows category (.symbol .category) :=
  .named <| (Follows.token (scans_keyword rfl rfl rfl)).map.orElse <|
    (Follows.token scans_string).map.orElse (Follows.token scans_ident).map

variable {n : Nat}

theorem fieldList_agree : Agree id n fieldList NoMarks (.symbol .fieldList) :=
  .named (field_follows.agree n).commaSeparated

/-- A keyword and what it introduces. -/
theorem afterKeyword_agree {x : Symbol} {w : String} {p : Reader α}
    {P : α → List QuantityToken → Prop} {Q : β → List QuantityToken → Prop} {e : Peg} {g : α → β}
    (hrule : x.rule = words [w]) (hw : w.toList.all isWordChar = true) (hlow : lowerToken w = w)
    (h : Agree skipGap n p P e) (hg : ∀ a ts, P a ts → Q (g a) ts) :
    Agree id n (do keyword x w; let a ← p; return g a) Q (row [.symbol x, e]) :=
  ((keyword_follows hrule hw hlow).agree n).bind fun _ => h.map hg

/-- Something in brackets. -/
theorem inBrackets_agree {p : Reader α} {e : Peg} {c d : Char} {w v : String} {g : α → β}
    (hw : w.toList = [c]) (hv : v.toList = [d]) (h : Agree skipGap n p NoMarks e) :
    Agree id (n + 1) (do char c; let a ← p; spaced (char d); return g a) NoMarks
      (row [.text w, e, .text v]) := by
  have hopen : Consumes (.text w) :=
    Consumes.text (by rw [← String.length_toList, hw]; exact Nat.one_pos)
  refine ((Follows.char hw).agree (n + 1)).bind_consuming hopen fun _ => ?_
  exact h.bind fun _ => ((Follows.char hv).agree n).spaced.map fun _ _ h => h

theorem literalList_agree : Agree id (n + 1) literalList NoMarks (.symbol .literalList) :=
  .named (inBrackets_agree rfl rfl (literal_follows.agree n).commaSeparated.spaced)

/-! ## Values -/

theorem sign_follows {x : Symbol} {w : String} {c : Char} {op : ArithOp} (hrule : x.rule = .text w)
    (hw : w.toList = [c]) : Follows (sign x c op) (.symbol x) :=
  (Follows.token (scans_sign hrule hw)).map

theorem arithOp_follows : Follows arithOp arithSign :=
  (sign_follows rfl rfl).orElse <| (sign_follows rfl rfl).orElse <|
    (sign_follows rfl rfl).orElse <| (sign_follows rfl rfl).orElse (sign_follows rfl rfl)

theorem consumes_arithSign : Consumes arithSign := by
  have hsign : ∀ {x : Symbol} {w : String}, x.rule = .text w → 0 < w.length →
      Consumes (.symbol x) := fun hrule hw => .symbol (hrule ▸ Consumes.text hw)
  exact (hsign rfl (by decide)).alt <| (hsign rfl (by decide)).alt <|
    (hsign rfl (by decide)).alt <| (hsign rfl (by decide)).alt (hsign rfl (by decide))

section Values

variable {value : Reader Value} (hvalue : Agree id n value NoMarks (.symbol .value))
include hvalue

theorem callOf_agree : Agree id (n + 1) (callOf value) NoMarks (.symbol .call) := by
  refine .named <| ((Follows.token scans_callName).agree (n + 1)).bind fun name => ?_
  refine ((Follows.char rfl).agree (n + 1)).spaced.bind_consuming (Consumes.text (by decide))
    fun _ => ?_
  exact hvalue.commaSeparated.spaced.bind fun _ =>
    ((Follows.char rfl).agree n).spaced.map fun _ _ h => h

theorem valueTerm_agree : Agree id (n + 1) (valueTerm value) NoMarks valueOperand := by
  refine .orElse ((Follows.token (scans_keyword rfl rfl rfl)).map.agree _) ?_
  refine .orElse (literal_follows.map.agree _) ?_
  refine .orElse ((callOf_agree hvalue).map fun _ _ h => h) ?_
  refine .orElse (field_follows.map.agree _) ?_
  exact .named (inBrackets_agree rfl rfl hvalue.spaced)

theorem valueOf_agree : Agree id (n + 1) (valueOf value) NoMarks (.symbol .value) := by
  have hterm := valueTerm_agree hvalue
  have hrow := ((arithOp_follows.agree (n + 1)).spaced.bind fun op =>
    hterm.spaced.map (g := fun v => (op, v)) fun _ _ h => h).many_noMarks
      consumes_arithSign.seq_left
  exact .named <| hterm.bind fun first => hrow.map fun _ _ h => h

end Values

/-- A value is read by its rule, if the bound on the depth exceeds the length
of the text. -/
theorem value_agree (n : Nat) : Agree id n (value n) NoMarks (.symbol .value) := by
  induction n with
  | zero => exact fun _ hs => absurd hs (Nat.not_lt_zero _)
  | succ n ih => exact (valueOf_agree ih).congr (read_delay _)

/-! ## Conditions -/

theorem notOp_follows : Follows notOp (.symbol .notOp) := keyword_follows rfl rfl rfl

theorem consumes_notOp : Consumes (.symbol .notOp) :=
  .symbol (Consumes.word (w := "not") (by decide)).seq_left

theorem consumes_logicOp : Consumes (.symbol .logicOp) :=
  .symbol ((Consumes.word (w := "and") (by decide)).alt
    (Consumes.word (w := "or") (by decide))).seq_left

theorem read_negatedTerm_bind (term : Reader Condition) (f : Condition → Reader β)
    (s : List Char) :
    (negatedTerm term >>= f).read s
      = (do let nots ← many (spaced notOp)
            let c ← spaced term
            f (c.negateTimes nots.length)).read s := by
  simp only [negatedTerm, read_bind, read_pure, Option.bind_assoc, Option.bind_some]

section Conditions

variable {value : Reader Value} (hvalue : Agree id (n + 1) value NoMarks (.symbol .value))
include hvalue

theorem comparison_agree :
    Agree id (n + 1) (comparison value) NoMarks (.symbol .comparison) :=
  .named <| hvalue.bind fun _ =>
    ((Follows.token scans_compareOp).agree _).spaced.bind fun _ =>
      hvalue.spaced.map fun _ _ h => h

theorem lookupTarget_agree :
    Agree id (n + 1) (lookupTarget value) NoMarks
      ((Peg.symbol .literalList).alt (.symbol .value)) :=
  .orElse (literalList_agree.map fun _ _ h => h) (hvalue.map fun _ _ h => h)

theorem lookup_agree : Agree id (n + 1) (lookup value) NoMarks (.symbol .lookup) := by
  refine .named <| (field_follows.agree _).bind fun _ => ?_
  refine (notOp_follows.agree _).spaced.optional_noMarks.bind fun _ => ?_
  refine ((Follows.token scans_lookupOp).agree _).spaced.bind fun _ => ?_
  exact (lookupTarget_agree hvalue).spaced.map fun _ _ h => h

variable {condition : Reader Condition}
  (hcond : Agree skipGap n condition NoMarks (.symbol .condition))
include hcond

theorem conditionTerm_agree :
    Agree id (n + 1) (conditionTerm value condition) NoMarks conditionOperand := by
  refine .orElse (comparison_agree hvalue) ?_
  refine .orElse (lookup_agree hvalue) ?_
  refine .orElse ((Follows.token scans_boolean).map.agree _) ?_
  refine .orElse ((callOf_agree (hvalue.mono (Nat.le_succ n))).map fun _ _ h => h) ?_
  exact .named (inBrackets_agree rfl rfl hcond.spaced_again)

theorem conditionOf_agree :
    Agree skipGap (n + 1) (conditionOf value condition) NoMarks (.symbol .condition) := by
  have hterm := (conditionTerm_agree hvalue hcond).spaced
  have hnots := (notOp_follows.agree (n + 1)).spaced.many_noMarks consumes_notOp
  have hnegated : Agree skipGap (n + 1) (negatedTerm (conditionTerm value condition)) NoMarks
      (row [rowOf (.symbol .notOp), conditionOperand]) :=
    hnots.bind fun _ => hterm.map fun _ _ h => h
  have hrow := (((Follows.token scans_logicOp).agree (n + 1)).spaced.bind fun op =>
    hnegated.spaced_again.map (g := fun c => (op, c)) fun _ _ h => h).many_noMarks
      consumes_logicOp.seq_left
  -- the rule has the first term and what follows it in one row
  have hread := hnots.bind (Q := NoMarks) fun nots => hterm.bind fun c => hrow.map (Q := NoMarks)
    (g := Condition.ofRow (c.negateTimes nots.length)) fun _ _ h => h
  exact .named (hread.congr (read_negatedTerm_bind _ _))

end Conditions

/-- A condition is read by its rule, if the bound on the depth exceeds the
length of the text. -/
theorem condition_agree (n : Nat) :
    Agree skipGap n (condition n) NoMarks (.symbol .condition) := by
  induction n with
  | zero => exact fun _ hs => absurd hs (Nat.not_lt_zero _)
  | succ n ih => exact (conditionOf_agree (value_agree (n + 1)) ih).congr (read_delay _)

/-! ## Quantities

The tokens of a query that stand for quantities, in source order. -/

def spanToken (t : SourceToken) : QuantityToken := ⟨.span, t⟩

def countToken (t : SourceToken) : QuantityToken := ⟨.count, t⟩

def spanTokens : Body SourceToken → List QuantityToken
  | .sequence q => q.maxspan.elim [] ([spanToken ·])
  | .simple _ | .sample _ => []

def countTokens : Pipe SourceToken → List QuantityToken
  | .head t | .tail t => [countToken t]
  | .count | .unique _ | .filter _ | .sort _ => []

def SourceQuery.quantities (q : SourceQuery) : List QuantityToken :=
  spanTokens q.body ++ q.pipes.flatMap countTokens

/-- A token that is kept as it stands is marked. -/
theorem sourceToken_agree {x : Symbol} {scan : List Char → Option (List Char × List Char)}
    (h : x.Scans scan) (hscan : ∀ s token rest, scan s = some (token, rest) → s = token ++ rest)
    (kind : QuantityKind) :
    Agree id n (sourceToken x scan) (Marks fun t => [⟨kind, t⟩]) (.mark kind (.symbol x)) := by
  intro s _
  have hfollows := Follows.token h
  have hread : (sourceToken x scan).read s
      = (scan s).map fun found => (⟨s.length, found.1⟩, found.2) := by
    rw [sourceToken, read_bind, read_located, read_token]
    cases scan s <;> rfl
  cases hs : scan s with
  | none =>
      rw [hs] at hread
      exact .fails hread (.mark_fails (hfollows.read_fails hs))
  | some found =>
      rw [hs] at hread
      exact .takes hread (.mark (hfollows.read_takes hs) (hscan s _ _ hs)) rfl rfl

/-! ## Queries -/

theorem sequenceBy_agree : Agree id n sequenceBy NoMarks (.symbol .sequenceBy) :=
  .named <| ((keyword_follows rfl rfl rfl).agree n).bind fun _ => fieldList_agree.spaced

theorem maxspan_agree : Agree id n maxspan (Marks ([spanToken ·])) (.symbol .maxspan) := by
  refine .named <| ((keyword_follows rfl rfl rfl).agree n).bind fun _ => ?_
  refine ((keyword_follows rfl rfl rfl).agree n).spaced.bind fun _ => ?_
  refine ((Follows.char rfl).agree n).spaced.bind fun _ => ?_
  exact (sourceToken_agree scans_interval (fun _ _ _ => scanInterval_split) .span).spaced

section Queries

variable {condition : Reader Condition}
  (hcond : Agree skipGap n condition NoMarks (.symbol .condition))
include hcond

theorem simpleQuery_agree :
    Agree id n (simpleQuery condition) NoMarks (.symbol .simpleQuery) := by
  have hwhere := (keyword_follows (x := .kwWhere) (w := "where") rfl rfl rfl).agree n
  have hfilter := hwhere.spaced.bind fun _ => hcond.spaced_again
  exact .named <| (category_follows.agree n).bind fun _ =>
    hfilter.optional_noMarks.map fun _ _ h => h

theorem bracketed_agree :
    Agree id n (bracketed condition) NoMarks
      (row [.text "[", .symbol .simpleQuery, .text "]"]) :=
  (inBrackets_agree rfl rfl (simpleQuery_agree hcond).spaced).mono (Nat.le_succ n)

omit hcond in
theorem read_bracketed_bind (f : SimpleQuery → Reader β) (s : List Char) :
    (bracketed condition >>= f).read s
      = (do char '['
            let q ← spaced (simpleQuery condition)
            spaced (char ']')
            f q).read s := by
  simp only [bracketed, read_bind, read_pure, Option.bind_assoc, Option.bind_some]

theorem sequenceStep_agree :
    Agree id n (sequenceStep condition) NoMarks (.symbol .sequenceStep) := by
  have hread := ((Follows.char (c := '[') (w := "[") rfl).agree n).bind fun _ =>
    (simpleQuery_agree hcond).spaced.bind fun q =>
      ((Follows.char (c := ']') (w := "]") rfl).agree n).spaced.bind (Q := NoMarks) fun _ =>
        sequenceBy_agree.spaced.optional_noMarks.map
          (g := fun keys => SequenceStep.mk q (keys.getD [])) fun _ _ h => h
  exact .named (hread.congr (read_bracketed_bind _))

theorem sequenceQuery_agree :
    Agree id n (sequenceQuery condition) (Marks fun q => spanTokens (.sequence q))
      (.symbol .sequenceQuery) := by
  have hstep := (sequenceStep_agree hcond).spaced
  refine .named <| ((keyword_follows rfl rfl rfl).agree n).bind fun _ => ?_
  refine sequenceBy_agree.spaced.optional_noMarks.bind fun keys => ?_
  refine maxspan_agree.spaced.optional.bind fun span => ?_
  refine (hstep.many1 hstep (consumes_of_text rfl (by decide))).map fun steps _ h => ?_
  cases h
  exact List.append_nil _

theorem sampleQuery_agree :
    Agree id n (sampleQuery condition) NoMarks (.symbol .sampleQuery) := by
  have hstep : Agree skipGap n (spaced (sampleStep condition)) NoMarks (.symbol .sampleStep) :=
    (Agree.named (bracketed_agree hcond)).spaced
  refine .named <| ((keyword_follows rfl rfl rfl).agree n).bind fun _ => ?_
  refine ((keyword_follows rfl rfl rfl).agree n).spaced.bind fun _ => ?_
  refine fieldList_agree.spaced.bind fun keys => ?_
  exact (hstep.many1 hstep (consumes_of_text rfl (by decide))).map fun _ _ h => h

theorem body_agree : Agree id n (body condition) (Marks spanTokens) queryBody := by
  refine .orElse ((sequenceQuery_agree hcond).map fun _ _ h => h) ?_
  refine .orElse ((sampleQuery_agree hcond).map fun _ _ h => h) ?_
  exact (simpleQuery_agree hcond).map fun _ _ h => h

theorem pipe_agree : Agree id n (pipe condition) (Marks countTokens) (.symbol .pipe) := by
  have hcount := (sourceToken_agree scans_number (fun _ _ _ => scanNumber_split) .count
    (n := n)).spaced
  refine .named <| ((Follows.char rfl).agree n).bind fun _ => .spaced ?_
  refine .orElse (.named (afterKeyword_agree rfl rfl rfl hcount fun _ _ h => h)) ?_
  refine .orElse (.named (afterKeyword_agree rfl rfl rfl hcount fun _ _ h => h)) ?_
  refine .orElse (.named (((keyword_follows rfl rfl rfl).agree n).map fun _ _ h => h)) ?_
  refine .orElse (.named (afterKeyword_agree rfl rfl rfl fieldList_agree.spaced fun _ _ h => h)) ?_
  refine .orElse (.named (afterKeyword_agree rfl rfl rfl hcond.spaced_again fun _ _ h => h)) ?_
  exact .named (afterKeyword_agree rfl rfl rfl fieldList_agree.spaced fun _ _ h => h)

/-- The rule for whole texts opens with a gap. -/
theorem queryOf_agree :
    Agree skipGap n (queryOf condition) (Marks SourceQuery.quantities)
      (row [queryBody, rowOf (.symbol .pipe), .symbol .endOfInput]) := by
  refine .congr ?_ (read_named _ _)
  refine (body_agree hcond).spaced.bind fun b => ?_
  refine ((pipe_agree hcond).spaced.many (consumes_of_text rfl (by decide))).bind fun pipes => ?_
  refine ((Follows.token scans_endOfInput).agree n).spaced.map fun _ _ h => ?_
  cases h
  show spanTokens b ++ (pipes.flatMap countTokens ++ []) = _
  rw [List.append_nil]
  rfl

end Queries

/-- On a whole text the reader of queries and the rule for queries agree. -/
theorem query_agree (text : List Char) :
    AgreeAt (query text) (Marks SourceQuery.quantities) (.symbol .query) text text := by
  have hempty : Run Peg.empty text (some (text, [])) := Runs.empty.takes rfl
  have hskip : Run gap text (some (skipGap text, [])) := runs_gap.takes rfl
  have hlen := Nat.lt_succ_of_le (skipGap_length_le text)
  cases queryOf_agree (condition_agree (text.length + 1)) text hlen with
  | fails hp he => exact .fails hp (.symbol (.seq_stops hempty (.seq_stops hskip he)))
  | takes hp he hgap ha => exact .takes hp (.symbol (.seq hempty (.seq hskip he))) hgap ha

end EventQuery.Grammar
