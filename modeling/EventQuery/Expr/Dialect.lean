import EventQuery.Expr.BottomUp
import EventQuery.Query.Builtin

/-!
# SQL operators

The pass `Expr.toDialect` turns the operators and functions of the query
language into those of SQL.

* `==` and `!=` against a bare null become null tests.
* A pattern lookup over a list becomes a disjunction of single lookups; a
  negated lookup is the negation of the whole.
* Forms that disregard case compare lower-cased operands, or use the
  operator of SQL that disregards case.
-/

namespace EventQuery

namespace Dialect

/-! ## Building blocks -/

def lower (e : Expr) : Expr := .call "lower" [e]

def negateIf (negated : Bool) (e : Expr) : Expr :=
  if negated then .unary "NOT" [e] else e

/-- Split the mark of negation off an operator name. -/
def splitNot (op : String) : Bool × String :=
  match op.toList with
  | 'n' :: 'o' :: 't' :: ' ' :: base => (true, String.ofList base)
  | _ => (false, op)

def replaceChar (c : Char) (replacement : List Char) (s : List Char) : List Char :=
  s.flatMap fun d => if d = c then replacement else [d]

/-- A pattern with `*` and `?` as a pattern with `%` and `_`. The
characters that are special in the latter are escaped first, so no text
becomes a wildcard by accident. -/
def likePattern (pattern : List Char) : List Char :=
  replaceChar '?' ['_'] <|
  replaceChar '*' ['%'] <|
  replaceChar '_' ['\\', '_'] <|
  replaceChar '%' ['\\', '%'] pattern

/-- Only a string constant is read as a pattern. -/
def likeOperand : Expr → Expr
  | .const (.string s) => .string (String.ofList (likePattern s.toList))
  | e => e

/-! ## Lookups -/

/-- One match per pattern, joined by `OR` when there is a list. -/
def patternLookup (negated : Bool) (field patterns : Expr) (build : Expr → Expr → Expr) :
    Except SoftError Expr :=
  match patterns with
  | .array items =>
    match Expr.orChain? (items.map (build field)) with
    | some chain => .ok (negateIf negated chain)
    | none => .error .emptyLookup
  | single => .ok (negateIf negated (build field single))

def inOp (negated : Bool) : String := if negated then "NOT IN" else "IN"

def inLookup (negated : Bool) (left : Expr) : Expr → Expr
  | .array items => .binary (inOp negated) left (.array items)
  | single => .binary (inOp negated) left (.array [single])

def inLookupInsensitive (op : String) (negated : Bool) (left : Expr) :
    Expr → Except SoftError Expr
  | .array items => .ok (.binary (inOp negated) (lower left) (.array (items.map lower)))
  | _ => .error (.needsList op)

/-- A lookup by its operator without the mark of negation. -/
def lookup (op : String) (negated : Bool) (base : String) (left right : Expr) :
    Except SoftError Expr :=
  match base with
  | "in" => .ok (inLookup negated left right)
  | "in~" => inLookupInsensitive op negated left right
  | "like" => patternLookup negated left right fun f p => .binary "LIKE" f (likeOperand p)
  | "like~" => patternLookup negated left right fun f p => .binary "ILIKE" f (likeOperand p)
  | ":" => patternLookup negated left right fun f p => .binary "ILIKE" f (likeOperand p)
  | "regex" => patternLookup negated left right fun f p => .call "match" [f, p]
  | "regex~" => patternLookup negated left right fun f p => .call "match" [f, p]
  | _ => .error (.unknownBinary op)

/-! ## Operators -/

/-- Operators that SQL spells alike. -/
def sharedOps : List String := [">", "<", ">=", "<=", "+", "-", "*", "/", "%"]

/-- The SQL operator for one that is not a lookup; those that test for
equality depend on the right operand. -/
def plainOp? (op : String) (right : Expr) : Option String :=
  match op with
  | "and" => some "AND"
  | "or" => some "OR"
  | "==" => match right with
    | .null => some "IS"
    | _ => some "="
  | "!=" => match right with
    | .null => some "IS NOT"
    | _ => some "<>"
  | _ => if sharedOps.contains op then some op else none

def binary (op : String) (left right : Expr) : Except SoftError Expr :=
  match plainOp? op right with
  | some sqlOp => .ok (.binary sqlOp left right)
  | none =>
    let (negated, base) := splitNot op
    lookup op negated base left right

def unary (op : String) (args : List Expr) : Except SoftError Expr :=
  if op = "not" then .ok (.unary "NOT" args) else .error (.unknownUnary op)

/-! ## Functions -/

def arity : Builtin → Arity
  | .add | .divide | .modulo | .multiply | .subtract => .exactly 2
  | .endsWith | .startsWith | .stringContains => .exactly 2
  | .indexOf | .substring => .either 2 3
  | .length | .number | .string => .exactly 1
  | .between => .exactly 3
  | .cidrMatch => .atLeast 2
  | .concat => .atLeast 1

/-- Has the function a variant that disregards case? -/
def hasInsensitive : Builtin → Bool
  | .endsWith | .indexOf | .startsWith | .stringContains => true
  | _ => false

/-- The first two operands in lower case, for the variant that disregards
case. -/
def lowerTwo : List Expr → List Expr
  | a :: b :: rest => lower a :: lower b :: rest
  | [a] => [lower a]
  | [] => []

/-- An operator over two arguments. -/
def operatorCall? (op : String) : List Expr → Option Expr
  | [left, right] => some (.binary op left right)
  | _ => none

/-- Is the address in one of the ranges? -/
def cidrCall? : List Expr → Option Expr
  | address :: ranges =>
    Expr.orChain? (ranges.map fun range => .call "isIPAddressInRange" [address, range])
  | [] => none

/-- The SQL form of a function over its arguments; none for the one
function that has no SQL form, and where an argument is missing. -/
def target? (f : Builtin) (args : List Expr) : Option Expr :=
  match f with
  | .add => operatorCall? "+" args
  | .subtract => operatorCall? "-" args
  | .multiply => operatorCall? "*" args
  | .divide => operatorCall? "/" args
  | .modulo => operatorCall? "%" args
  | .between => none
  | .cidrMatch => cidrCall? args
  | .concat => some (.call "concat" args)
  | .endsWith => some (.call "endsWithUTF8" args)
  | .indexOf => some (.call "position" args)
  | .length => some (.call "length" args)
  | .number => some (.call "toFloat" args)
  | .startsWith => some (.call "startsWithUTF8" args)
  | .string => some (.call "toString" args)
  | .stringContains => some (.call "hasSubsequence" args)
  | .substring => some (.call "substring" args)

/-- Why a function has no SQL form over these arguments. -/
def targetError (name : String) (f : Builtin) (args : List Expr) : SoftError :=
  match f with
  | .between => .notImplemented name
  | .cidrMatch => if args.isEmpty then .missingAddress name else .missingRange name
  | _ => .missingOperand name

/-- The function a name stands for, if the dialect knows it. -/
def function? (name : String) : Option (Builtin × Bool) :=
  let (base, insensitive) := splitTilde name
  match Builtin.ofName? base with
  | some f => if insensitive && !hasInsensitive f then none else some (f, insensitive)
  | none => none

def call (name : String) (args : List Expr) : Except SoftError Expr :=
  match function? name with
  | none => .error (.unknownFunction name)
  | some (f, insensitive) =>
    if (arity f).accepts args.length then
      match target? f (if insensitive then lowerTwo args else args) with
      | some e => .ok e
      | none => .error (targetError name f args)
    else
      .error (.arity name (arity f) args.length)

/-! ## The pass -/

def step : Expr → Except SoftError Expr
  | .binary op left right => binary op left right
  | .unary op args => unary op args
  | .call name args => call name args
  | e => .ok e

end Dialect

def Expr.toDialect (e : Expr) : Mapped Expr := e.bottomUp Dialect.step

end EventQuery
