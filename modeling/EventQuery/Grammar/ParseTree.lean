import EventQuery.Grammar.Reader
import EventQuery.Grammar.Token

/-!
# Parse trees

A text is matched to a tree. A node stands for a symbol of the grammar: it
has the piece of the text that the symbol takes, and the nodes of the
symbols inside it. What no symbol stands for, a bracket or a comma, leaves
no node.

A matcher is a reader of nodes in a row. Matchers only match: what the
nodes mean is no concern of theirs.
-/

namespace EventQuery.Grammar

structure ParseNode where
  symbol : Symbol
  /-- Characters left where the piece starts. -/
  left : Nat
  text : String
  children : List ParseNode

/-- The nodes inside without the keywords. -/
def ParseNode.significant (n : ParseNode) : List ParseNode :=
  n.children.filter fun c => !c.symbol.isKeyword

abbrev Matcher := Reader (List ParseNode)

open Reader

/-- A reader after a gap. -/
def spaced {α : Type} (p : Reader α) : Reader α where
  read s := p.read (skipGap s)
  blame s t := p.blame (skipGap s) t
  attempt s t := p.attempt (skipGap s) t
  attempt_eq s t := p.attempt_eq (skipGap s) t

namespace Matcher

/-- A symbol with nothing inside. -/
def leaf (symbol : Symbol) (scan : List Char → Option (String × List Char)) : Matcher := do
  let (left, text) ← located (token symbol scan)
  return [⟨symbol, left, text, []⟩]

/-- A symbol and what is inside. -/
def branch (symbol : Symbol) (inside : Matcher) : Matcher :=
  named symbol do
    let (left, text, children) ← located (spanned inside)
    return [⟨symbol, left, String.ofList text, children⟩]

/-- A character without a symbol. -/
def mark (c : Char) : Matcher := do
  char c
  return []

/-- One after the other. -/
def row : List Matcher → Matcher
  | [] => pure []
  | p :: ps => do
    let nodes ← p
    let more ← row ps
    return nodes ++ more

def maybe (p : Matcher) : Matcher := do
  let nodes ← p.optional
  return nodes.getD []

def repeated (p : Matcher) : Matcher := do
  let nodes ← p.many
  return nodes.flatten

/-- At least once; what comes after the first is matched by `next`. -/
def repeated1 (first next : Matcher) : Matcher := row [first, repeated next]

/-- Items with commas between them. -/
def commaSeparated (p : Matcher) : Matcher := repeated1 p (row [spaced (mark ','), spaced p])

end Matcher

end EventQuery.Grammar
