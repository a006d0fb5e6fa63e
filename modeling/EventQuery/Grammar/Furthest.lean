import EventQuery.Grammar.Symbol

/-!
# The furthest failure

When a text is refused, the report names the furthest place at which a
grammar symbol was tried and failed, and the symbols that failed there.
`Furthest` is that record while reading goes on. A place is given by the
number of characters left, so further means fewer.

A symbol stands for the symbols inside it: when a symbol fails, the
failures inside it at the same place are replaced by the symbol itself.
There is one exception: if exactly one symbol failed inside, that one is
kept, as it says more.
-/

namespace EventQuery.Grammar

structure Furthest where
  /-- Characters left at the furthest place. -/
  left : Nat
  /-- Symbols that failed there, in the order of their failures. -/
  symbols : List Symbol
  deriving DecidableEq, Repr

namespace Furthest

/-- Nothing failed yet: the record stands at the start of the text. -/
def start (text : List Char) : Furthest := ⟨text.length, []⟩

/-- How many symbols are recorded at a place. -/
def countAt (t : Furthest) (left : Nat) : Nat :=
  if t.left = left then t.symbols.length else 0

/-- Record that `symbol` failed at a place, keeping the first `kept` of
the symbols recorded there. A place behind the furthest one is ignored. -/
def record (t : Furthest) (symbol : Symbol) (left kept : Nat) : Furthest :=
  if left < t.left then
    ⟨left, [symbol]⟩
  else if left = t.left then
    ⟨left, t.symbols.take kept ++ [symbol]⟩
  else
    t

/-- The failure of `symbol` at a place where `before` symbols were
recorded when it was tried, and the failures inside it since. -/
def settle (t : Furthest) (symbol : Symbol) (left before : Nat) : Furthest :=
  if t.countAt left = before + 1 then t else t.record symbol left before

end Furthest

end EventQuery.Grammar
