import EventQuery.Query.Operator

/-!
# Built-in functions

The sixteen functions a query may call. A call names a function and says
whether it is the variant that disregards case, spelled with a trailing
`~`. Whether a function *has* such a variant is not decided here.
-/

namespace EventQuery

inductive Builtin where
  | add
  | between
  | cidrMatch
  | concat
  | divide
  | endsWith
  | indexOf
  | length
  | modulo
  | multiply
  | number
  | startsWith
  | string
  | stringContains
  | substring
  | subtract
  deriving DecidableEq, Repr

namespace Builtin

def name : Builtin → String
  | add => "add"
  | between => "between"
  | cidrMatch => "cidrMatch"
  | concat => "concat"
  | divide => "divide"
  | endsWith => "endsWith"
  | indexOf => "indexOf"
  | length => "length"
  | modulo => "modulo"
  | multiply => "multiply"
  | number => "number"
  | startsWith => "startsWith"
  | string => "string"
  | stringContains => "stringContains"
  | substring => "substring"
  | subtract => "subtract"

def all : List Builtin :=
  [add, between, cidrMatch, concat, divide, endsWith, indexOf, length,
   modulo, multiply, number, startsWith, string, stringContains, substring,
   subtract]

/-- The function with exactly this name. -/
def ofName? (name : String) : Option Builtin :=
  all.find? fun f => f.name == name

/-- The function with this name up to ASCII case. -/
def ofToken? (token : String) : Option Builtin :=
  all.find? fun f => lowerToken f.name == lowerToken token

end Builtin

/-- Split one trailing `~` off a name. -/
def splitTilde (name : String) : String × Bool :=
  match name.toList.reverse with
  | '~' :: rest => (String.ofList rest.reverse, true)
  | _ => (name, false)

/-- A function as a call names it. -/
structure CallName where
  builtin : Builtin
  /-- The `~` variant. -/
  insensitive : Bool
  deriving DecidableEq, Repr

namespace CallName

/-- The canonical spelling. -/
def text (f : CallName) : String :=
  f.builtin.name ++ (if f.insensitive then "~" else "")

def ofToken? (token : String) : Option CallName :=
  let (base, insensitive) := splitTilde token
  (Builtin.ofToken? base).map (⟨·, insensitive⟩)

end CallName

end EventQuery
