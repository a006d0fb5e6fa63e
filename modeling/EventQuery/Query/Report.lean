import EventQuery.Grammar.ParseTree

/-!
# Reports

What is said about a text that is no query, and at which place. A count or
a time span that is no quantity is a `QuantityFault`; a text may have many
of these. A parse tree that is out of shape is a `Mismatch`.
-/

namespace EventQuery

/-- A report at a place of a text. -/
structure SyntaxError where
  line : Nat
  column : Nat
  message : String
  deriving DecidableEq, Repr

namespace SyntaxError

def text (e : SyntaxError) : String :=
  toString e.line ++ ":" ++ toString e.column ++ ": " ++ e.message

/-- Does one report come before another, or at the same place? -/
def notAfter (e e' : SyntaxError) : Bool :=
  e.line < e'.line || (e.line = e'.line && e.column ≤ e'.column)

end SyntaxError

/-! ## Places -/

/-- Line and column after `before`, counted from one. A line ends with a
line feed, or with a carriage return and a line feed; a carriage return
alone is a character like any other. -/
def lineColumnFrom (line column : Nat) : List Char → Nat × Nat
  | '\r' :: '\n' :: s => lineColumnFrom (line + 1) 1 s
  | '\n' :: s => lineColumnFrom (line + 1) 1 s
  | _ :: s => lineColumnFrom line (column + 1) s
  | [] => (line, column)

/-- Line and column of the place in `text` with `left` characters left. -/
def lineColumn (text : List Char) (left : Nat) : Nat × Nat :=
  lineColumnFrom 1 1 (text.take (text.length - left))

def SyntaxError.at (text : List Char) (left : Nat) (message : String) : SyntaxError :=
  let (line, column) := lineColumn text left
  ⟨line, column, message⟩

namespace Grammar

/-! ## Quantities -/

/-- A count or an interval as it stands in the text. -/
structure SourceToken where
  /-- Characters left where the token starts. -/
  left : Nat
  text : List Char
  deriving DecidableEq, Repr

def ParseNode.token (n : ParseNode) : SourceToken := ⟨n.left, n.text.toList⟩

/-- What is wrong with a token that stands for a quantity. -/
inductive QuantityFault where
  | count (token : SourceToken)
  | span (token : SourceToken)
  deriving DecidableEq, Repr

namespace QuantityFault

def token : QuantityFault → SourceToken
  | count t => t
  | span t => t

def message : QuantityFault → String
  | count t =>
    "expected a non-negative integer count, found '" ++ String.ofList t.text ++ "'"
  | span t => "interval '" ++ String.ofList t.text ++ "' is out of range"

def report (text : List Char) (f : QuantityFault) : SyntaxError :=
  .at text f.token.left f.message

end QuantityFault

/-! ## Shapes -/

/-- How a parse tree can be out of shape. -/
inductive Mismatch where
  | unexpected (n : ParseNode)
  | missing (parent : ParseNode) (what : String)
  | unknownFunction (name : ParseNode)

namespace Mismatch

/-- The node that is blamed. -/
def node : Mismatch → ParseNode
  | unexpected n => n
  | missing parent _ => parent
  | unknownFunction name => name

def message : Mismatch → String
  | unexpected n => "unexpected " ++ n.symbol.label ++ " '" ++ n.text ++ "'"
  | missing _ what => "expected " ++ what
  | unknownFunction name => "unknown function '" ++ name.text ++ "'"

def report (text : List Char) (m : Mismatch) : SyntaxError := .at text m.node.left m.message

end Mismatch

end Grammar

end EventQuery
