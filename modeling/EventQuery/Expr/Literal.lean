import EventQuery.Decimal.Numeral
import EventQuery.Expr.Basic
import EventQuery.Query.Basic

/-!
# Values of literals

What the literal tokens of a query stand for.

* A string in three quotes stands for the text between them. In a string
  in one quote on each side the pairs `\"`, `\\`, `\n`, `\t` and `\r` stand
  for one character; any other backslash is kept, so that escapes of
  patterns survive.
* A number is an integer if it has neither fraction nor exponent and fits
  64 bits; otherwise it is the nearest floating-point number.
-/

namespace EventQuery

namespace Literal

/-- Resolve the escapes of a quoted string. -/
def unescape : List Char → List Char
  | '\\' :: '"' :: s => '"' :: unescape s
  | '\\' :: '\\' :: s => '\\' :: unescape s
  | '\\' :: 'n' :: s => '\n' :: unescape s
  | '\\' :: 't' :: s => '\t' :: unescape s
  | '\\' :: 'r' :: s => '\r' :: unescape s
  | '\\' :: c :: s => '\\' :: c :: unescape s
  | c :: s => c :: unescape s
  | [] => []

def tripleQuote : List Char := ['"', '"', '"']

/-- The text between three quotes on both sides. -/
def betweenTriple? (token : List Char) : Option (List Char) :=
  if 6 ≤ token.length ∧ tripleQuote.isPrefixOf token ∧ tripleQuote.isSuffixOf token then
    some ((token.drop 3).take (token.length - 6))
  else
    none

/-- The text between one quote on both sides. -/
def betweenQuotes? : List Char → Option (List Char)
  | '"' :: s => if s.getLast? = some '"' then some s.dropLast else none
  | _ => none

/-- The text a string token stands for. A text without its quotes stands
for itself. -/
def stringValue (token : List Char) : List Char :=
  match betweenTriple? token with
  | some inner => inner
  | none =>
    match betweenQuotes? token with
    | some inner => unescape inner
    | none => token

def evalString (raw : String) : String :=
  String.ofList (stringValue raw.toList)

def evalBoolean (raw : String) : Bool :=
  lowerToken raw == "true"

def evalNumber? (raw : String) : Option Const :=
  match Numeral.int64? raw.toList with
  | some n => some (.int n)
  | none => (Numeral.binary64? raw.toList).map .float

end Literal

end EventQuery
