import EventQuery.Proofs.PegAgreement

/-!
# The bound on the depth

The readers of values and conditions take a bound on the depth of nesting.
On a text shorter than the bound it makes no difference: two bounds above
the length of a text read the same (`condition_read_eq`).

`Alike n p q` says that two readers do the same where fewer than `n`
characters are left, and leave no more than there was. It has one lemma for
each combinator. A group or a call opens with a character of its own, so
what stands inside is read at a smaller bound (`Alike.bind_consuming`).
-/

namespace EventQuery.Grammar

open Reader

variable {α β : Type}

/-- Two readers that do the same where fewer than `n` characters are left. -/
structure Alike (n : Nat) (p q : Reader α) : Prop where
  read_eq {s : List Char} (hs : s.length < n) : q.read s = p.read s
  length_le {s rest : List Char} {a : α} (hs : s.length < n) (h : p.read s = some (a, rest)) :
    rest.length ≤ s.length

namespace Alike

variable {n : Nat} {p q p' q' : Reader α} {f g : α → Reader β}

theorem of_follows {e : Peg} (h : Follows p e) (n : Nat) : Alike n p p where
  read_eq _ := rfl
  length_le _ hread := (h.read_takes hread).placed.length_le

theorem mono {k : Nat} (h : Alike n p q) (hk : k ≤ n) : Alike k p q where
  read_eq hs := h.read_eq (Nat.lt_of_lt_of_le hs hk)
  length_le hs := h.length_le (Nat.lt_of_lt_of_le hs hk)

theorem pure (a : α) : Alike n (pure a) (pure a) where
  read_eq _ := rfl
  length_le _ hread := by
    cases hread
    exact Nat.le_refl _

theorem named (h : Alike n p q) (x : Symbol) : Alike n (named x p) (named x q) where
  read_eq := h.read_eq
  length_le := h.length_le

theorem delay {p q : Unit → Reader α} (h : Alike n (p ()) (q ())) :
    Alike n (delay p) (delay q) where
  read_eq := h.read_eq
  length_le := h.length_le

theorem none (p q : Reader α) : Alike 0 p q where
  read_eq hs := absurd hs (Nat.not_lt_zero _)
  length_le hs := absurd hs (Nat.not_lt_zero _)

theorem spaced (h : Alike n p q) : Alike n (spaced p) (spaced q) where
  read_eq {s} hs := h.read_eq (Nat.lt_of_le_of_lt (skipGap_length_le s) hs)
  length_le {s _ _} hs hread :=
    have hle := skipGap_length_le s
    (h.length_le (Nat.lt_of_le_of_lt hle hs) hread).trans hle

theorem orElse (h : Alike n p q) (h' : Alike n p' q') : Alike n (p <|> p') (q <|> q') where
  read_eq hs := by rw [read_orElse, read_orElse, h.read_eq hs, h'.read_eq hs]
  length_le hs hread := by
    rw [read_orElse, Option.or_eq_some_iff] at hread
    rcases hread with hread | ⟨-, hread⟩
    · exact h.length_le hs hread
    · exact h'.length_le hs hread

/-- The length of what the first reader leaves bounds the second. -/
theorem bind_of_length {k : Nat} (h : Alike n p q)
    (hlen : ∀ s a rest, s.length < n → p.read s = some (a, rest) → rest.length < k)
    (hf : ∀ a, Alike k (f a) (g a)) : Alike n (p >>= f) (q >>= g) where
  read_eq {s} hs := by
    rw [read_bind, read_bind, h.read_eq hs]
    cases hp : p.read s with
    | none => rfl
    | some found => exact (hf found.1).read_eq (hlen s _ _ hs hp)
  length_le {s _ _} hs hread := by
    rw [read_bind, Option.bind_eq_some_iff] at hread
    obtain ⟨found, hp, hrest⟩ := hread
    exact ((hf found.1).length_le (hlen s _ _ hs hp) hrest).trans (h.length_le hs hp)

theorem bind (h : Alike n p q) (hf : ∀ a, Alike n (f a) (g a)) : Alike n (p >>= f) (q >>= g) :=
  h.bind_of_length (fun _ _ _ hs hread => Nat.lt_of_le_of_lt (h.length_le hs hread) hs) hf

/-- After a character the bound goes down. -/
theorem bind_consuming (h : Alike (n + 1) p q)
    (hless : ∀ s a rest, p.read s = some (a, rest) → rest.length < s.length)
    (hf : ∀ a, Alike n (f a) (g a)) : Alike (n + 1) (p >>= f) (q >>= g) :=
  h.bind_of_length
    (fun s a rest hs hread => Nat.lt_of_lt_of_le (hless s a rest hread) (Nat.le_of_lt_succ hs)) hf

theorem map {r : α → β} (h : Alike n p q) :
    Alike n (p >>= fun a => Pure.pure (r a)) (q >>= fun a => Pure.pure (r a)) :=
  h.bind fun _ => pure _

theorem optional (h : Alike n p q) : Alike n p.optional q.optional where
  read_eq hs := by
    dsimp only [Reader.optional]
    rw [h.read_eq hs]
  length_le {s _ _} hs hread := by
    dsimp only [Reader.optional] at hread
    cases hp : p.read s with
    | none =>
        rw [hp] at hread
        cases hread
        exact Nat.le_refl _
    | some found =>
        rw [hp] at hread
        cases hread
        exact h.length_le hs hp

theorem readMany (h : Alike n p q) (k : Nat) {s : List Char} (hs : s.length < n) :
    Reader.readMany q k s = Reader.readMany p k s ∧
      (Reader.readMany p k s).2.length ≤ s.length := by
  induction k generalizing s with
  | zero => exact ⟨rfl, Nat.le_refl _⟩
  | succ k ih =>
      rw [Reader.readMany, Reader.readMany, h.read_eq hs]
      cases hp : p.read s with
      | none => exact ⟨rfl, Nat.le_refl _⟩
      | some found =>
          have hle := h.length_le hs hp
          obtain ⟨heq, hrest⟩ := ih (Nat.lt_of_le_of_lt hle hs)
          exact ⟨by simp only [heq], hrest.trans hle⟩

theorem many (h : Alike n p q) : Alike n p.many q.many where
  read_eq {s} hs := congrArg some (h.readMany (s.length + 1) hs).1
  length_le {s _ _} hs hread := by
    have hle := (h.readMany (s.length + 1) hs).2
    rw [Option.some.inj hread] at hle
    exact hle

theorem commaSeparated (h : Alike n p q) : Alike n (commaSeparated p) (commaSeparated q) := by
  have hcomma := of_follows (Follows.char (c := ',') (w := ",") rfl) n
  exact h.bind fun _ => (hcomma.spaced.bind fun _ => h.spaced).many.map

end Alike

/-! ## Values -/

variable {n : Nat}

theorem char_alike (c : Char) : Alike n (char c) (char c) where
  read_eq _ := rfl
  length_le _ hread := by
    rw [read_char_eq_some.mp hread]
    exact Nat.le_succ _

theorem char_consumes {c : Char} {s rest : List Char} {u : Unit}
    (h : (char c).read s = some (u, rest)) : rest.length < s.length := by
  rw [read_char_eq_some.mp h]
  exact Nat.lt_succ_self _

theorem token_alike {x : Symbol} {scan : List Char → Option (α × List Char)} (h : x.Scans scan) :
    Alike n (token x scan) (token x scan) :=
  .of_follows (.token h) n

/-- Something in brackets. -/
theorem inBrackets_alike {p q : Reader α} (h : Alike n p q) (c d : Char) (r : α → β) :
    Alike (n + 1) (do char c; let a ← p; spaced (char d); return r a)
      (do char c; let a ← q; spaced (char d); return r a) :=
  (char_alike c).bind_consuming (fun _ _ _ => char_consumes) fun _ =>
    h.bind fun _ => (char_alike d).spaced.map

theorem literalList_alike : Alike (n + 1) literalList literalList :=
  .named (inBrackets_alike (Alike.of_follows literal_follows n).commaSeparated.spaced _ _ _) _

section Values

variable {v v' : Reader Value} (hvalue : Alike n v v')
include hvalue

theorem callOf_alike : Alike (n + 1) (callOf v) (callOf v') := by
  refine .named ((token_alike scans_callName).bind fun _ => ?_) _
  refine (char_alike '(').spaced.bind_consuming (fun s _ _ hread => ?_) fun _ => ?_
  · exact Nat.lt_of_lt_of_le (char_consumes hread) (skipGap_length_le s)
  · exact hvalue.commaSeparated.spaced.bind fun _ => (char_alike ')').spaced.map

theorem valueTerm_alike : Alike (n + 1) (valueTerm v) (valueTerm v') := by
  refine .orElse (token_alike (scans_keyword rfl rfl rfl)).map ?_
  refine .orElse (.map (.of_follows literal_follows _)) ?_
  refine .orElse (callOf_alike hvalue).map ?_
  refine .orElse (.map (.of_follows field_follows _)) ?_
  exact .named (inBrackets_alike hvalue.spaced _ _ _) _

theorem valueOf_alike : Alike (n + 1) (valueOf v) (valueOf v') := by
  have hterm := valueTerm_alike hvalue
  have hop : Alike (n + 1) arithOp arithOp := .of_follows arithOp_follows _
  exact .named (hterm.bind fun _ => (hop.spaced.bind fun _ => hterm.spaced.map).many.map) _

end Values

theorem value_alike {depth : Nat} (h : n ≤ depth) : Alike n (value n) (value depth) := by
  induction n generalizing depth with
  | zero => exact .none _ _
  | succ n ih =>
      cases depth with
      | zero => exact absurd h (Nat.not_succ_le_zero n)
      | succ depth => exact .delay (valueOf_alike (ih (Nat.le_of_succ_le_succ h)))

/-! ## Conditions -/

section Conditions

variable {v v' : Reader Value} (hvalue : Alike (n + 1) v v')
include hvalue

theorem comparison_alike : Alike (n + 1) (comparison v) (comparison v') :=
  .named (hvalue.bind fun _ => (token_alike scans_compareOp).spaced.bind fun _ =>
    hvalue.spaced.map) _

theorem lookup_alike : Alike (n + 1) (lookup v) (lookup v') := by
  have htarget : Alike (n + 1) (lookupTarget v) (lookupTarget v') :=
    .orElse literalList_alike.map hvalue.map
  have hnot : Alike (n + 1) notOp notOp := .of_follows notOp_follows _
  refine .named ((Alike.of_follows field_follows _).bind fun _ => ?_) _
  exact hnot.spaced.optional.bind fun _ => (token_alike scans_lookupOp).spaced.bind fun _ =>
    htarget.spaced.map

variable {c c' : Reader Condition} (hcond : Alike n c c')
include hcond

theorem conditionTerm_alike : Alike (n + 1) (conditionTerm v c) (conditionTerm v' c') := by
  refine .orElse (comparison_alike hvalue) ?_
  refine .orElse (lookup_alike hvalue) ?_
  refine .orElse (token_alike scans_boolean).map ?_
  refine .orElse (callOf_alike (hvalue.mono (Nat.le_succ n))).map ?_
  exact .named (inBrackets_alike hcond.spaced _ _ _) _

theorem conditionOf_alike : Alike (n + 1) (conditionOf v c) (conditionOf v' c') := by
  have hterm := conditionTerm_alike hvalue hcond
  have hnot : Alike (n + 1) notOp notOp := .of_follows notOp_follows _
  have hnegated : Alike (n + 1) (negatedTerm (conditionTerm v c))
      (negatedTerm (conditionTerm v' c')) := hnot.spaced.many.bind fun _ => hterm.spaced.map
  exact .named (hnegated.bind fun _ => ((token_alike scans_logicOp).spaced.bind fun _ =>
    hnegated.spaced.map).many.map) _

end Conditions

theorem condition_alike {depth : Nat} (h : n ≤ depth) :
    Alike n (condition n) (condition depth) := by
  induction n generalizing depth with
  | zero => exact .none _ _
  | succ n ih =>
      cases depth with
      | zero => exact absurd h (Nat.not_succ_le_zero n)
      | succ depth =>
          exact .delay (conditionOf_alike (value_alike h) (ih (Nat.le_of_succ_le_succ h)))

/-- Two bounds above the length of a text read the same condition. -/
theorem condition_read_eq {depth depth' : Nat} {s : List Char} (h : s.length < depth)
    (h' : s.length < depth') : (condition depth).read s = (condition depth').read s := by
  have hlt := Nat.lt_succ_self s.length
  rw [(condition_alike h).read_eq hlt, (condition_alike h').read_eq hlt]

end EventQuery.Grammar
