/-!
# Operators

The four operator families of a query and the tokens that spell them.
Each family has its spelling (`token`, what lowering writes into an
expression), its tag (`tag`, what the JSON form of a query shows) and,
where the operator is read back from a token, `ofToken?`.

Word operators are read without regard to ASCII case, symbols exactly.
-/

namespace EventQuery

/-- A token in lower case; only ASCII letters have case here. -/
def lowerToken (token : String) : String :=
  String.ofList (token.toList.map Char.toLower)

/-! ## Comparisons -/

inductive CompareOp where
  | eq
  | notEq
  | greater
  | less
  | greaterEq
  | lessEq
  deriving DecidableEq, Repr

namespace CompareOp

def token : CompareOp → String
  | eq => "=="
  | notEq => "!="
  | greater => ">"
  | less => "<"
  | greaterEq => ">="
  | lessEq => "<="

def tag : CompareOp → String
  | eq => "Eq"
  | notEq => "NotEq"
  | greater => "Greater"
  | less => "Less"
  | greaterEq => "GreaterEq"
  | lessEq => "LessEq"

/-- All comparison operators. A token that begins another one comes
after it, so the first that starts a text is the longest. -/
def all : List CompareOp :=
  [eq, notEq, greaterEq, lessEq, greater, less]

def ofToken? (token : String) : Option CompareOp :=
  all.find? fun op => op.token == token

end CompareOp

/-! ## Lookups -/

/-- Lookup operators; the `~` forms and the colon disregard case. -/
inductive LookupOp where
  | colon
  | like
  | likeInsensitive
  | regex
  | regexInsensitive
  | inList
  | inListInsensitive
  deriving DecidableEq, Repr

namespace LookupOp

def token : LookupOp → String
  | colon => ":"
  | like => "like"
  | likeInsensitive => "like~"
  | regex => "regex"
  | regexInsensitive => "regex~"
  | inList => "in"
  | inListInsensitive => "in~"

def tag : LookupOp → String
  | colon => "Colon"
  | like => "Like"
  | likeInsensitive => "LikeInsensitive"
  | regex => "Regex"
  | regexInsensitive => "RegexInsensitive"
  | inList => "In"
  | inListInsensitive => "InInsensitive"

def all : List LookupOp :=
  [colon, like, likeInsensitive, regex, regexInsensitive, inList, inListInsensitive]

def ofToken? (token : String) : Option LookupOp :=
  all.find? fun op => op.token == lowerToken token

end LookupOp

/-! ## Connectives -/

inductive LogicOp where
  | and
  | or
  deriving DecidableEq, Repr

namespace LogicOp

def token : LogicOp → String
  | and => "and"
  | or => "or"

def tag : LogicOp → String
  | and => "And"
  | or => "Or"

def all : List LogicOp := [and, or]

def ofToken? (token : String) : Option LogicOp :=
  all.find? fun op => op.token == lowerToken token

end LogicOp

/-! ## Arithmetic -/

inductive ArithOp where
  | add
  | subtract
  | multiply
  | divide
  | modulo
  deriving DecidableEq, Repr

namespace ArithOp

def token : ArithOp → String
  | add => "+"
  | subtract => "-"
  | multiply => "*"
  | divide => "/"
  | modulo => "%"

def tag : ArithOp → String
  | add => "Add"
  | subtract => "Subtract"
  | multiply => "Multiply"
  | divide => "Divide"
  | modulo => "Modulo"

/-- Multiplication, division and remainder bind tighter than addition
and subtraction. -/
def isTight : ArithOp → Bool
  | add | subtract => false
  | multiply | divide | modulo => true

end ArithOp

end EventQuery
