import EventQuery.Grammar.Furthest

/-!
# Readers

A reader takes a value off the front of a text or fails. Alternatives are
ordered, repetition is greedy, and a finished alternative is never taken
back: the combinators are those of a parsing expression grammar.

A reader has two sides. `read` is the result. `blame` is the effect of
the same attempt on the record of the furthest failure. The sides are
kept apart so that a result never depends on the record, nor on what
stands before the text. `attempt` computes both sides at once, which
spares reading the parts of a construct again to place the blame.
-/

namespace EventQuery.Grammar

structure Reader (α : Type) where
  /-- The value at the front of the text, and what is left. -/
  read : List Char → Option (α × List Char)
  /-- What an attempt on this text adds to the record. -/
  blame : List Char → Furthest → Furthest
  /-- Both sides in one go. -/
  attempt : List Char → Furthest → Option (α × List Char) × Furthest :=
    fun s t => (read s, blame s t)
  attempt_eq : ∀ s t, attempt s t = (read s, blame s t) := by intros; rfl

namespace Reader

variable {α β : Type}

/-! ## Sequence and choice -/

def succeed (a : α) : Reader α where
  read s := some (a, s)
  blame _ t := t

def fail : Reader α where
  read _ := none
  blame _ t := t

def andThen (p : Reader α) (f : α → Reader β) : Reader β where
  read s :=
    match p.read s with
    | some (a, rest) => (f a).read rest
    | none => none
  blame s t :=
    match p.read s with
    | some (a, rest) => (f a).blame rest (p.blame s t)
    | none => p.blame s t
  attempt s t :=
    match p.attempt s t with
    | (some (a, rest), t) => (f a).attempt rest t
    | (none, t) => (none, t)
  attempt_eq s t := by
    rw [p.attempt_eq]
    cases p.read s with
    | none => rfl
    | some found => exact (f found.1).attempt_eq found.2 (p.blame s t)

instance : Monad Reader where
  pure := succeed
  bind := andThen

/-- The first of two readers that succeeds. -/
def orElse (p q : Reader α) : Reader α where
  read s :=
    match p.read s with
    | some found => some found
    | none => q.read s
  blame s t :=
    match p.read s with
    | some _ => p.blame s t
    | none => q.blame s (p.blame s t)
  attempt s t :=
    match p.attempt s t with
    | (some found, t) => (some found, t)
    | (none, t) => q.attempt s t
  attempt_eq s t := by
    rw [p.attempt_eq]
    cases p.read s with
    | none => exact q.attempt_eq s (p.blame s t)
    | some found => rfl

instance : OrElse (Reader α) where
  orElse p q := p.orElse (q ())

def optional (p : Reader α) : Reader (Option α) where
  read s :=
    match p.read s with
    | some (a, rest) => some (some a, rest)
    | none => some (none, s)
  blame := p.blame
  attempt s t :=
    match p.attempt s t with
    | (some (a, rest), t) => (some (some a, rest), t)
    | (none, t) => (some (none, s), t)
  attempt_eq s t := by
    rw [p.attempt_eq]
    cases p.read s <;> rfl

/-- A reader that is built when it is used. -/
def delay (p : Unit → Reader α) : Reader α where
  read s := (p ()).read s
  blame s t := (p ()).blame s t
  attempt s t := (p ()).attempt s t
  attempt_eq := (p ()).attempt_eq

/-! ## Repetition -/

/-- At most `n` values in a row. -/
def readMany (p : Reader α) : Nat → List Char → List α × List Char
  | 0, s => ([], s)
  | n + 1, s =>
    match p.read s with
    | some (a, rest) =>
      let (as, rest) := readMany p n rest
      (a :: as, rest)
    | none => ([], s)

/-- The record after at most `n` attempts in a row. -/
def blameMany (p : Reader α) : Nat → List Char → Furthest → Furthest
  | 0, _, t => t
  | n + 1, s, t =>
    match p.read s with
    | some (_, rest) => blameMany p n rest (p.blame s t)
    | none => p.blame s t

def attemptMany (p : Reader α) : Nat → List Char → Furthest → (List α × List Char) × Furthest
  | 0, s, t => (([], s), t)
  | n + 1, s, t =>
    match p.attempt s t with
    | (some (a, rest), t) =>
      let ((as, rest), t) := attemptMany p n rest t
      ((a :: as, rest), t)
    | (none, t) => (([], s), t)

theorem attemptMany_eq (p : Reader α) (n : Nat) (s : List Char) (t : Furthest) :
    attemptMany p n s t = (readMany p n s, blameMany p n s t) := by
  induction n generalizing s t with
  | zero => rfl
  | succ n ih =>
    rw [attemptMany, readMany, blameMany, p.attempt_eq]
    cases p.read s with
    | none => rfl
    | some found => simp only [ih]

/-- As many values as there are. A reader under `many` takes at least one
character, so the length of the text bounds their number. -/
def many (p : Reader α) : Reader (List α) where
  read s := some (readMany p (s.length + 1) s)
  blame s t := blameMany p (s.length + 1) s t
  attempt s t :=
    let (found, t) := attemptMany p (s.length + 1) s t
    (some found, t)
  attempt_eq s t := by simp only [attemptMany_eq]

/-- At least one value; those after the first are read by `next`. -/
def many1 (first next : Reader α) : Reader (List α) :=
  first.andThen fun a => next.many.andThen fun as => succeed (a :: as)

/-! ## Symbols -/

/-- A reader whose failure is the failure of `symbol`. -/
def named (symbol : Symbol) (p : Reader α) : Reader α where
  read := p.read
  blame s t :=
    match p.read s with
    | some _ => p.blame s t
    | none => (p.blame s t).settle symbol s.length (t.countAt s.length)
  attempt s t :=
    match p.attempt s t with
    | (some found, t') => (some found, t')
    | (none, t') => (none, t'.settle symbol s.length (t.countAt s.length))
  attempt_eq s t := by
    rw [p.attempt_eq]
    cases p.read s <;> rfl

/-- A token: a symbol with nothing inside to blame. -/
def token (symbol : Symbol) (scan : List Char → Option (α × List Char)) : Reader α where
  read := scan
  blame s t :=
    match scan s with
    | some _ => t
    | none => t.record symbol s.length (t.countAt s.length)
  attempt s t :=
    match scan s with
    | some found => (some found, t)
    | none => (none, t.record symbol s.length (t.countAt s.length))
  attempt_eq s t := by cases scan s <;> rfl

/-- A fixed character that no report names. -/
def char (c : Char) : Reader Unit where
  read
    | d :: rest => if d = c then some ((), rest) else none
    | [] => none
  blame _ t := t

/-- A value together with the number of characters left where it starts. -/
def located (p : Reader α) : Reader (Nat × α) where
  read s :=
    match p.read s with
    | some (a, rest) => some ((s.length, a), rest)
    | none => none
  blame := p.blame
  attempt s t :=
    match p.attempt s t with
    | (some (a, rest), t) => (some ((s.length, a), rest), t)
    | (none, t) => (none, t)
  attempt_eq s t := by
    rw [p.attempt_eq]
    cases p.read s <;> rfl

/-- A value together with the characters that it takes. -/
def spanned (p : Reader α) : Reader (List Char × α) where
  read s :=
    match p.read s with
    | some (a, rest) => some ((s.take (s.length - rest.length), a), rest)
    | none => none
  blame := p.blame
  attempt s t :=
    match p.attempt s t with
    | (some (a, rest), t) => (some ((s.take (s.length - rest.length), a), rest), t)
    | (none, t) => (none, t)
  attempt_eq s t := by
    rw [p.attempt_eq]
    cases p.read s <;> rfl

end Reader

end EventQuery.Grammar
