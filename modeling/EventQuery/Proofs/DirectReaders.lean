import EventQuery.Query.Precedence
import EventQuery.Query.Report

/-!
# Direct readers

The grammar of queries once more, with one reader per symbol that gives
what the symbol means, where a matcher gives its tree. No tree stands
between a text and its query here, so facts about queries that are read go
from reader to reader, by the combinators they are made of.

Counts and the time span are kept as tokens (`SourceQuery`). The query is
finished when all of them are quantities, and otherwise they have faults.
-/

namespace EventQuery.Grammar

open Reader

/-- A query as it is read: counts and spans are still tokens. -/
abbrev SourceQuery := QueryOf SourceToken SourceToken

/-! ## Operators and function names -/

def scanOptionalMarker : List Char → Option (Unit × List Char)
  | '?' :: s => some ((), s)
  | _ => none

def scanCompareOp (s : List Char) : Option (CompareOp × List Char) :=
  (CompareOp.all.find? fun op => op.token.toList.isPrefixOf s).map fun op =>
    (op, s.drop op.token.length)

/-- A colon, or a word operator with an optional `~`. -/
def scanLookupOp : List Char → Option (LookupOp × List Char)
  | ':' :: s => some (.colon, s)
  | s =>
    if ["like", "regex", "in"].contains (lowerWord s) then
      match s.dropWhile isWordChar with
      | '~' :: rest =>
        if wordEnds rest then
          (LookupOp.ofToken? (lowerWord s ++ "~")).map (·, rest)
        else
          none
      | rest => (LookupOp.ofToken? (lowerWord s)).map (·, rest)
    else
      none

def scanLogicOp (s : List Char) : Option (LogicOp × List Char) :=
  (LogicOp.ofToken? (lowerWord s)).map (·, s.dropWhile isWordChar)

/-- A function name with an optional `~`. -/
def scanCallName (s : List Char) : Option (CallName × List Char) :=
  (Builtin.ofToken? (lowerWord s)).map fun f =>
    match s.dropWhile isWordChar with
    | '~' :: rest => (⟨f, true⟩, rest)
    | rest => (⟨f, false⟩, rest)

/-- A fixed operator character. -/
def scanSign (c : Char) : List Char → Option (Unit × List Char)
  | d :: s => if d = c then some ((), s) else none
  | [] => none

/-! ## Combinators -/

/-- Readers in a row, separated by commas. -/
def commaSeparated {α : Type} (p : Reader α) : Reader (List α) :=
  many1 p do
    spaced (char ',')
    spaced p

def keyword (symbol : Symbol) (word : String) : Reader Unit := do
  let _ ← token symbol (scanWord [word])

def sourceToken (symbol : Symbol) (scan : List Char → Option (List Char × List Char)) :
    Reader SourceToken := do
  let (left, text) ← located (token symbol scan)
  return ⟨left, text⟩

/-! ## Fields and literals -/

/-- A field. The marker of an optional field stands directly before its
name. -/
def field : Reader Field :=
  named .field do
    let marker ← (token .optionalMarker scanOptionalMarker).optional
    let name ← token .ident scanIdent
    return ⟨name, marker.isSome⟩

def fieldList : Reader (List Field) :=
  named .fieldList (commaSeparated field)

def string : Reader String := token .string scanString

def boolean : Reader String := token .boolean (scanWord ["true", "false"])

def literal : Reader Literal :=
  named .literal <|
    (do return .string (← string))
    <|> (do return .number (String.ofList (← token .number scanNumber)))
    <|> (do return .boolean (← boolean))

def literalList : Reader (List Literal) :=
  named .literalList do
    char '('
    let items ← spaced (commaSeparated literal)
    spaced (char ')')
    return items

/-! ## Values -/

def sign (symbol : Symbol) (c : Char) (op : ArithOp) : Reader ArithOp := do
  token symbol (scanSign c)
  return op

def arithOp : Reader ArithOp :=
  sign .add '+' .add
  <|> sign .subtract '-' .subtract
  <|> sign .multiply '*' .multiply
  <|> sign .divide '/' .divide
  <|> sign .modulo '%' .modulo

/-- A call whose arguments are read by `value`. -/
def callOf (value : Reader Value) : Reader (CallName × List Value) :=
  named .call do
    let name ← token .callName scanCallName
    spaced (char '(')
    let args ← spaced (commaSeparated value)
    spaced (char ')')
    return (name, args)

/-- One operand; `value` reads what stands inside a group or a call. -/
def valueTerm (value : Reader Value) : Reader Value :=
  (do let _ ← token .null (scanWord ["null"]); return .null)
  <|> (do return .literal (← literal))
  <|> (do let (name, args) ← callOf value; return .call name args)
  <|> (do return .field (← field))
  <|> named .valueGroup do
        char '('
        let v ← spaced value
        spaced (char ')')
        return .group v

/-- Operands and arithmetic operators in a row. -/
def valueOf (value : Reader Value) : Reader Value :=
  named .value do
    let first ← valueTerm value
    let row ← many do
      let op ← spaced arithOp
      let v ← spaced (valueTerm value)
      return (op, v)
    return Value.ofRow first row

/-- A value that nests less than `depth` levels. -/
def value : Nat → Reader Value
  | 0 => fail
  | depth + 1 => delay fun _ => valueOf (value depth)

/-! ## Conditions -/

def notOp : Reader Unit := keyword .notOp "not"

def comparison (value : Reader Value) : Reader Condition :=
  named .comparison do
    let left ← value
    let op ← spaced (token .compareOp scanCompareOp)
    let right ← spaced value
    return .comparison op left right

def lookupTarget (value : Reader Value) : Reader LookupTarget :=
  (do return .list (← literalList)) <|> (do return .value (← value))

def lookup (value : Reader Value) : Reader Condition :=
  named .lookup do
    let f ← field
    let negation ← (spaced notOp).optional
    let op ← spaced (token .lookupOp scanLookupOp)
    let target ← spaced (lookupTarget value)
    return .lookup f negation.isSome op target

/-- One operand of a condition; `condition` reads what stands inside a
group. -/
def conditionTerm (value : Reader Value) (condition : Reader Condition) : Reader Condition :=
  comparison value
  <|> lookup value
  <|> (do return .boolean (← boolean))
  <|> (do let (name, args) ← callOf value; return .call name args)
  <|> named .conditionGroup do
        char '('
        let c ← spaced condition
        spaced (char ')')
        return .group c

/-- A term under its run of negations. -/
def negatedTerm (term : Reader Condition) : Reader Condition := do
  let nots ← many (spaced notOp)
  let c ← spaced term
  return c.negateTimes nots.length

/-- Terms and connectives in a row. -/
def conditionOf (value : Reader Value) (condition : Reader Condition) : Reader Condition :=
  named .condition do
    let first ← negatedTerm (conditionTerm value condition)
    let row ← many do
      let op ← spaced (token .logicOp scanLogicOp)
      let c ← spaced (negatedTerm (conditionTerm value condition))
      return (op, c)
    return Condition.ofRow first row

/-- A condition that nests less than `depth` levels. -/
def condition : Nat → Reader Condition
  | 0 => fail
  | depth + 1 => delay fun _ => conditionOf (value (depth + 1)) (condition depth)

/-! ## Queries

From here on `condition` is a parameter: the reader of conditions at the
depth that the whole text needs. -/

def category : Reader Category :=
  named .category <|
    (do let _ ← token .any (scanWord ["any"]); return .any)
    <|> (do return .quoted (← string))
    <|> (do return .name (← token .ident scanIdent))

def simpleQuery (condition : Reader Condition) : Reader SimpleQuery :=
  named .simpleQuery do
    let c ← category
    let filter ← optional do
      spaced (keyword .kwWhere "where")
      spaced condition
    return ⟨c, filter⟩

/-- A simple query in brackets. -/
def bracketed (condition : Reader Condition) : Reader SimpleQuery := do
  char '['
  let q ← spaced (simpleQuery condition)
  spaced (char ']')
  return q

def sequenceBy : Reader (List Field) :=
  named .sequenceBy do
    keyword .kwBy "by"
    spaced fieldList

def maxspan : Reader SourceToken :=
  named .maxspan do
    keyword .kwWith "with"
    spaced (keyword .kwMaxspan "maxspan")
    spaced (char '=')
    spaced (sourceToken .interval scanInterval)

def sequenceStep (condition : Reader Condition) : Reader SequenceStep :=
  named .sequenceStep do
    let q ← bracketed condition
    let keys ← (spaced sequenceBy).optional
    return ⟨q, keys.getD []⟩

def sequenceQuery (condition : Reader Condition) : Reader (SequenceQuery SourceToken) :=
  named .sequenceQuery do
    keyword .kwSequence "sequence"
    let keys ← (spaced sequenceBy).optional
    let span ← (spaced maxspan).optional
    let steps ← many1 (spaced (sequenceStep condition)) (spaced (sequenceStep condition))
    return ⟨keys.getD [], span, steps⟩

def sampleStep (condition : Reader Condition) : Reader SimpleQuery :=
  named .sampleStep (bracketed condition)

def sampleQuery (condition : Reader Condition) : Reader SampleQuery :=
  named .sampleQuery do
    keyword .kwSample "sample"
    spaced (keyword .kwBy "by")
    let keys ← spaced fieldList
    let steps ← many1 (spaced (sampleStep condition)) (spaced (sampleStep condition))
    return ⟨keys, steps⟩

def body (condition : Reader Condition) : Reader (Body SourceToken) :=
  (do return .sequence (← sequenceQuery condition))
  <|> (do return .sample (← sampleQuery condition))
  <|> (do return .simple (← simpleQuery condition))

/-! ## Pipes -/

def count : Reader SourceToken := sourceToken .number scanNumber

def headPipe : Reader (Pipe SourceToken) :=
  named .headPipe do
    keyword .kwHead "head"
    return .head (← spaced count)

def tailPipe : Reader (Pipe SourceToken) :=
  named .tailPipe do
    keyword .kwTail "tail"
    return .tail (← spaced count)

def countPipe : Reader (Pipe SourceToken) :=
  named .countPipe do
    keyword .kwCount "count"
    return .count

def uniquePipe : Reader (Pipe SourceToken) :=
  named .uniquePipe do
    keyword .kwUnique "unique"
    return .unique (← spaced fieldList)

def filterPipe (condition : Reader Condition) : Reader (Pipe SourceToken) :=
  named .filterPipe do
    keyword .kwFilter "filter"
    return .filter (← spaced condition)

def sortPipe : Reader (Pipe SourceToken) :=
  named .sortPipe do
    keyword .kwSort "sort"
    return .sort (← spaced fieldList)

def pipe (condition : Reader Condition) : Reader (Pipe SourceToken) :=
  named .pipe do
    char '|'
    spaced
      (headPipe <|> tailPipe <|> countPipe <|> uniquePipe <|> filterPipe condition <|> sortPipe)

/-! ## Whole texts -/

def endOfInput : Reader Unit :=
  token .endOfInput fun s => if s.isEmpty then some ((), []) else none

def queryOf (condition : Reader Condition) : Reader SourceQuery :=
  named .query do
    let b ← spaced (body condition)
    let pipes ← many (spaced (pipe condition))
    spaced endOfInput
    return ⟨b, pipes⟩

/-- The query that a whole text spells. -/
def query (text : List Char) : Reader SourceQuery :=
  queryOf (condition (text.length + 1))

/-! ## Quantities -/

/-- The faults of a query's span and counts, in source order. -/
def spanFaults : Body SourceToken → List QuantityFault
  | .sequence ⟨_, some t, _⟩ => if (Interval.ofToken? t.text).isSome then [] else [.span t]
  | _ => []

def countFaults : Pipe SourceToken → List QuantityFault
  | .head t | .tail t => if (Quantity.ofToken? t.text).isSome then [] else [.count t]
  | _ => []

def SourceQuery.faults (q : SourceQuery) : List QuantityFault :=
  spanFaults q.body ++ q.pipes.flatMap countFaults

/-! ### Finished queries -/

def bodyOfSource : Body SourceToken → Option (Body Interval)
  | .simple q => some (.simple q)
  | .sample q => some (.sample q)
  | .sequence ⟨keys, none, steps⟩ => some (.sequence ⟨keys, none, steps⟩)
  | .sequence ⟨keys, some t, steps⟩ =>
    (Interval.ofToken? t.text).map fun i => .sequence ⟨keys, some i, steps⟩

def pipeOfSource : Pipe SourceToken → Option (Pipe Nat)
  | .head t => (Quantity.ofToken? t.text).map .head
  | .tail t => (Quantity.ofToken? t.text).map .tail
  | .count => some .count
  | .unique fields => some (.unique fields)
  | .filter condition => some (.filter condition)
  | .sort fields => some (.sort fields)

/-- The query with numbers for its tokens, if all are quantities. -/
def SourceQuery.finish? (q : SourceQuery) : Option Query := do
  let body ← bodyOfSource q.body
  let pipes ← q.pipes.mapM pipeOfSource
  return ⟨body, pipes⟩

end EventQuery.Grammar
