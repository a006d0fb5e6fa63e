/-!
# JSON values

A value keeps the order of its members and the source text of its
numbers, since settings may use a number as the text it is.
-/

namespace EventQuery

inductive Json where
  | null
  | bool (b : Bool)
  | number (text : String)
  | string (s : String)
  | array (items : List Json)
  | object (members : List (String × Json))
  deriving Inhabited

namespace Json

def nat (n : Nat) : Json := .number (toString n)

def strings (items : List String) : Json := .array (items.map .string)

/-- The members of an object. -/
def members? : Json → Option (List (String × Json))
  | .object members => some members
  | _ => none

def items? : Json → Option (List Json)
  | .array items => some items
  | _ => none

def string? : Json → Option String
  | .string s => some s
  | _ => none

def bool? : Json → Option Bool
  | .bool b => some b
  | _ => none

/-- The value of a member that stands at most once: `none` if the name is
repeated, `some none` if it is missing. -/
def single? (members : List (String × Json)) (key : String) : Option (Option Json) :=
  match members.filter fun m => m.1 == key with
  | [] => some none
  | [m] => some (some m.2)
  | _ => none

/-- The text of a scalar: a string itself, else the source text. -/
def scalarText? : Json → Option String
  | .null => some "null"
  | .bool b => some (if b then "true" else "false")
  | .number text => some text
  | .string s => some s
  | .array _ => none
  | .object _ => none

end Json

end EventQuery
