import EventQuery.Proofs.DirectReaders

/-!
# Laws of readers

Two ways to reason about a reader without opening its definition.

- Equations for `read`, one per combinator. They compute the result of a
  rule from the results of its parts.
- `Yields p P`: whatever `p` reads satisfies `P`. One rule per
  combinator, so that a fact about the values of a grammar rule follows
  its text.

`Takes` is the relation behind repetition: the values that a reader takes
off a text one after the other until it fails.
-/

namespace EventQuery.Grammar

namespace Reader

variable {α β : Type}

/-! ## Results -/

@[simp] theorem read_pure (a : α) (s : List Char) :
    (pure a : Reader α).read s = some (a, s) := rfl

@[simp] theorem read_fail (s : List Char) : (fail : Reader α).read s = none := rfl

@[simp] theorem read_bind (p : Reader α) (f : α → Reader β) (s : List Char) :
    (p >>= f).read s = (p.read s).bind fun found => (f found.1).read found.2 := by
  show (andThen p f).read s = _
  dsimp only [andThen]
  cases p.read s <;> rfl

@[simp] theorem read_orElse (p q : Reader α) (s : List Char) :
    (p <|> q).read s = (p.read s).or (q.read s) := by
  show (orElse p q).read s = _
  dsimp only [orElse]
  cases p.read s <;> rfl

@[simp] theorem read_named (symbol : Symbol) (p : Reader α) (s : List Char) :
    (named symbol p).read s = p.read s := rfl

@[simp] theorem read_token (symbol : Symbol) (scan : List Char → Option (α × List Char))
    (s : List Char) : (token symbol scan).read s = scan s := rfl

@[simp] theorem read_delay (p : Unit → Reader α) (s : List Char) :
    (delay p).read s = (p ()).read s := rfl

@[simp] theorem read_spaced (p : Reader α) (s : List Char) :
    (spaced p).read s = p.read (skipGap s) := rfl

theorem read_char_cons (c d : Char) (s : List Char) :
    (char c).read (d :: s) = if d = c then some ((), s) else none := rfl

@[simp] theorem read_char_self (c : Char) (s : List Char) :
    (char c).read (c :: s) = some ((), s) := by
  simp [read_char_cons]

theorem read_char_eq_some {c : Char} {s rest : List Char} {u : Unit} :
    (char c).read s = some (u, rest) ↔ s = c :: rest := by
  cases s with
  | nil => simp [char]
  | cons d s =>
      rw [read_char_cons]
      split
      · next h => simp [h]
      · next h => simp [h]

theorem read_char_eq_none {c : Char} {s : List Char} (h : s.head? ≠ some c) :
    (char c).read s = none := by
  cases s with
  | nil => rfl
  | cons d s =>
      rw [read_char_cons, if_neg]
      simpa using h

theorem read_optional_some {p : Reader α} {s rest : List Char} {a : α}
    (h : p.read s = some (a, rest)) : p.optional.read s = some (some a, rest) := by
  simp [optional, h]

theorem read_optional_none {p : Reader α} {s : List Char} (h : p.read s = none) :
    p.optional.read s = some (none, s) := by
  simp [optional, h]

theorem read_located (p : Reader α) (s : List Char) :
    p.located.read s = (p.read s).map fun found => ((s.length, found.1), found.2) := by
  dsimp only [located]
  cases p.read s <;> rfl

/-! ## Repetition -/

/-- The values `as` taken off the front of a text one after the other,
and what is left when the next attempt fails. -/
inductive Takes (p : Reader α) : List Char → List α → List Char → Prop
  | done {s : List Char} (h : p.read s = none) : Takes p s [] s
  | more {s rest tail : List Char} {a : α} {as : List α} (h : p.read s = some (a, rest))
      (hlt : rest.length < s.length) (hrest : Takes p rest as tail) : Takes p s (a :: as) tail

/-- A bound above the length of the text never cuts a repetition short. -/
theorem Takes.readMany_eq {p : Reader α} {s tail : List Char} {as : List α}
    (h : Takes p s as tail) : ∀ {n : Nat}, s.length < n → readMany p n s = (as, tail) := by
  induction h with
  | done h =>
      intro n hn
      cases n with
      | zero => omega
      | succ n => simp [readMany, h]
  | more h hlt _ ih =>
      intro n hn
      cases n with
      | zero => omega
      | succ n => simp [readMany, h, ih (n := n) (by omega)]

theorem Takes.read_many {p : Reader α} {s tail : List Char} {as : List α}
    (h : Takes p s as tail) : p.many.read s = some (as, tail) := by
  simp [many, h.readMany_eq (Nat.lt_succ_self _)]

theorem Takes.read_many1 {first next : Reader α} {s rest tail : List Char} {a : α}
    {as : List α} (ha : first.read s = some (a, rest)) (has : Takes next rest as tail) :
    (many1 first next).read s = some (a :: as, tail) := by
  simp [many1, andThen, ha, has.read_many, succeed]

/-- A repetition that takes nothing leaves the text as it is. -/
theorem read_many_nil {p : Reader α} {s rest : List Char}
    (h : p.many.read s = some ([], rest)) : rest = s := by
  simp only [many, readMany, Option.some.injEq] at h
  cases hs : p.read s with
  | none => simpa [hs] using h.symm
  | some found => simp [hs] at h

/-! ## Facts about what is read -/

/-- Every value that `p` reads satisfies `P`. -/
def Yields (p : Reader α) (P : α → Prop) : Prop :=
  ∀ ⦃s : List Char⦄ ⦃a : α⦄ ⦃rest : List Char⦄, p.read s = some (a, rest) → P a

namespace Yields

variable {p q : Reader α} {P : α → Prop} {R : β → Prop}

theorem any (p : Reader α) : p.Yields fun _ => True := fun _ _ _ _ => trivial

theorem pure {a : α} (h : P a) : (pure a : Reader α).Yields P := by
  intro s b rest hread
  simp only [read_pure, Option.some.injEq, Prod.mk.injEq] at hread
  exact hread.1 ▸ h

theorem fail : (fail : Reader α).Yields P := by
  intro s a rest hread
  cases hread

theorem bind {f : α → Reader β} (hp : p.Yields P) (hf : ∀ a, P a → (f a).Yields R) :
    (p >>= f).Yields R := by
  intro s b rest hread
  rw [read_bind, Option.bind_eq_some_iff] at hread
  obtain ⟨⟨a, mid⟩, hpa, hfb⟩ := hread
  exact hf a (hp hpa) hfb

theorem orElse (hp : p.Yields P) (hq : q.Yields P) : (p <|> q).Yields P := by
  intro s a rest hread
  rw [read_orElse, Option.or_eq_some_iff] at hread
  rcases hread with hpa | ⟨-, hqa⟩
  · exact hp hpa
  · exact hq hqa

theorem named {symbol : Symbol} (hp : p.Yields P) : (p.named symbol).Yields P :=
  fun _ _ _ hread => hp hread

theorem spaced (hp : p.Yields P) : (spaced p).Yields P :=
  fun _ _ _ hread => hp hread

theorem delay {p : Unit → Reader α} (hp : (p ()).Yields P) : (delay p).Yields P :=
  fun _ _ _ hread => hp hread

theorem token {symbol : Symbol} {scan : List Char → Option (α × List Char)}
    (h : ∀ s a rest, scan s = some (a, rest) → P a) : (token symbol scan).Yields P :=
  fun s a rest hread => h s a rest hread

theorem optional (hp : p.Yields P) :
    p.optional.Yields fun found => ∀ a, found = some a → P a := by
  intro s found rest hread a ha
  subst ha
  dsimp only [Reader.optional] at hread
  cases hs : p.read s with
  | none => simp [hs] at hread
  | some r =>
      simp only [hs, Option.some.injEq, Prod.mk.injEq] at hread
      exact hread.1 ▸ hp hs

theorem located (hp : p.Yields P) : p.located.Yields fun found => P found.2 := by
  intro s found rest hread
  rw [read_located, Option.map_eq_some_iff] at hread
  obtain ⟨⟨a, mid⟩, hpa, heq⟩ := hread
  obtain ⟨rfl, rfl⟩ := Prod.mk.injEq .. |>.mp heq
  exact hp hpa

theorem readMany (hp : p.Yields P) : ∀ (n : Nat) (s : List Char),
    ∀ a ∈ (Reader.readMany p n s).1, P a
  | 0, s => by simp [Reader.readMany]
  | n + 1, s => by
      rw [Reader.readMany]
      cases hs : p.read s with
      | none => simp
      | some r => simpa using ⟨hp hs, hp.readMany n r.2⟩

theorem many (hp : p.Yields P) : p.many.Yields fun as => ∀ a ∈ as, P a := by
  intro s as rest hread
  simp only [Reader.many, Option.some.injEq] at hread
  have h := hp.readMany (s.length + 1) s
  rw [hread] at h
  exact h

theorem many1 {first next : Reader α} (hfirst : first.Yields P) (hnext : next.Yields P) :
    (many1 first next).Yields fun as => as ≠ [] ∧ ∀ a ∈ as, P a :=
  bind hfirst fun a ha => bind hnext.many fun as has =>
    pure ⟨List.cons_ne_nil a as, by simpa using ⟨ha, has⟩⟩

theorem commaSeparated (hp : p.Yields P) :
    (commaSeparated p).Yields fun as => as ≠ [] ∧ ∀ a ∈ as, P a :=
  many1 hp (bind (any _) fun _ _ => hp.spaced)

end Yields

end Reader

end EventQuery.Grammar
