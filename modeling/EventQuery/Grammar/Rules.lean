import EventQuery.Grammar.ParseTree

/-!
# Rules

The grammar of queries, one matcher per symbol. Between the parts of a
construct there may be a gap of blanks and comments (`spaced`); inside a
token there is none.

Values and conditions nest. Their matchers take a bound on the depth of
nesting, one more than the number of characters left being always enough,
since every level opens with a character of its own.
-/

namespace EventQuery.Grammar.Rules

open Reader Matcher

def keyword (symbol : Symbol) (word : String) : Matcher := leaf symbol (scanWord [word])

/-! ## Fields and literals -/

/-- A field. The marker of an optional field stands directly before its
name. -/
def field : Matcher :=
  branch .field <|
    row [maybe (leaf .optionalMarker (scanSpelling ["?"])), leaf .ident scanIdent]

def fieldList : Matcher := branch .fieldList (commaSeparated field)

def string : Matcher := leaf .string scanString

def number : Matcher :=
  leaf .number fun s => (scanNumber s).map fun (token, rest) => (String.ofList token, rest)

def interval : Matcher :=
  leaf .interval fun s => (scanInterval s).map fun (token, rest) => (String.ofList token, rest)

def boolean : Matcher := leaf .boolean (scanWord ["true", "false"])

def literal : Matcher := branch .literal (string <|> number <|> boolean)

def literalList : Matcher :=
  branch .literalList <|
    row [mark '(', spaced (commaSeparated literal), spaced (mark ')')]

/-! ## Values -/

def sign (symbol : Symbol) (spelling : String) : Matcher := leaf symbol (scanSpelling [spelling])

def arithOp : Matcher :=
  sign .add "+"
  <|> sign .subtract "-"
  <|> sign .multiply "*"
  <|> sign .divide "/"
  <|> sign .modulo "%"

/-- A call whose arguments are matched by `value`. -/
def callOf (value : Matcher) : Matcher :=
  branch .call <|
    row [leaf .callName scanFunction, spaced (mark '('), spaced (commaSeparated value),
      spaced (mark ')')]

/-- One operand; `value` matches what stands inside a group or a call. -/
def valueTerm (value : Matcher) : Matcher :=
  leaf .null (scanWord ["null"])
  <|> literal
  <|> callOf value
  <|> field
  <|> branch .valueGroup (row [mark '(', spaced value, spaced (mark ')')])

/-- Operands and arithmetic operators in a row. -/
def valueOf (value : Matcher) : Matcher :=
  branch .value <|
    row [valueTerm value, repeated (row [spaced arithOp, spaced (valueTerm value)])]

/-- A value that nests less than `depth` levels. -/
def value : Nat → Matcher
  | 0 => fail
  | depth + 1 => delay fun _ => valueOf (value depth)

/-! ## Conditions -/

def notOp : Matcher := keyword .notOp "not"

def compareOp : Matcher := leaf .compareOp (scanSpelling ["==", "!=", ">=", "<=", ">", "<"])

def lookupOp : Matcher := leaf .lookupOp scanLookup

def logicOp : Matcher := leaf .logicOp (scanWord ["and", "or"])

def comparison (value : Matcher) : Matcher :=
  branch .comparison (row [value, spaced compareOp, spaced value])

def lookup (value : Matcher) : Matcher :=
  branch .lookup <|
    row [field, maybe (spaced notOp), spaced lookupOp, spaced (literalList <|> value)]

/-- One operand of a condition; `condition` matches what stands inside a
group. -/
def conditionTerm (value condition : Matcher) : Matcher :=
  comparison value
  <|> lookup value
  <|> boolean
  <|> callOf value
  <|> branch .conditionGroup (row [mark '(', spaced condition, spaced (mark ')')])

/-- A term under its run of negations. -/
def negatedTerm (term : Matcher) : Matcher := row [repeated (spaced notOp), spaced term]

/-- Terms and connectives in a row. -/
def conditionOf (value condition : Matcher) : Matcher :=
  branch .condition <|
    row [negatedTerm (conditionTerm value condition),
      repeated (row [spaced logicOp, spaced (negatedTerm (conditionTerm value condition))])]

/-- A condition that nests less than `depth` levels. -/
def condition : Nat → Matcher
  | 0 => fail
  | depth + 1 => delay fun _ => conditionOf (value (depth + 1)) (condition depth)

/-! ## Queries

From here on `condition` is a parameter: the matcher of conditions at the
depth that the whole text needs. -/

def category : Matcher :=
  branch .category (leaf .any (scanWord ["any"]) <|> string <|> leaf .ident scanIdent)

def simpleQuery (condition : Matcher) : Matcher :=
  branch .simpleQuery <|
    row [category, maybe (row [spaced (keyword .kwWhere "where"), spaced condition])]

/-- A simple query in brackets. -/
def bracketed (condition : Matcher) : Matcher :=
  row [mark '[', spaced (simpleQuery condition), spaced (mark ']')]

def sequenceBy : Matcher := branch .sequenceBy (row [keyword .kwBy "by", spaced fieldList])

def maxspan : Matcher :=
  branch .maxspan <|
    row [keyword .kwWith "with", spaced (keyword .kwMaxspan "maxspan"), spaced (mark '='),
      spaced interval]

def sequenceStep (condition : Matcher) : Matcher :=
  branch .sequenceStep (row [bracketed condition, maybe (spaced sequenceBy)])

def sequenceQuery (condition : Matcher) : Matcher :=
  branch .sequenceQuery <|
    row [keyword .kwSequence "sequence", maybe (spaced sequenceBy), maybe (spaced maxspan),
      repeated1 (spaced (sequenceStep condition)) (spaced (sequenceStep condition))]

def sampleStep (condition : Matcher) : Matcher := branch .sampleStep (bracketed condition)

def sampleQuery (condition : Matcher) : Matcher :=
  branch .sampleQuery <|
    row [keyword .kwSample "sample", spaced (keyword .kwBy "by"), spaced fieldList,
      repeated1 (spaced (sampleStep condition)) (spaced (sampleStep condition))]

def body (condition : Matcher) : Matcher :=
  sequenceQuery condition <|> sampleQuery condition <|> simpleQuery condition

/-! ## Pipes -/

def headPipe : Matcher := branch .headPipe (row [keyword .kwHead "head", spaced number])

def tailPipe : Matcher := branch .tailPipe (row [keyword .kwTail "tail", spaced number])

def countPipe : Matcher := branch .countPipe (keyword .kwCount "count")

def uniquePipe : Matcher := branch .uniquePipe (row [keyword .kwUnique "unique", spaced fieldList])

def filterPipe (condition : Matcher) : Matcher :=
  branch .filterPipe (row [keyword .kwFilter "filter", spaced condition])

def sortPipe : Matcher := branch .sortPipe (row [keyword .kwSort "sort", spaced fieldList])

def pipe (condition : Matcher) : Matcher :=
  branch .pipe <|
    row [mark '|', spaced
      (headPipe <|> tailPipe <|> countPipe <|> uniquePipe <|> filterPipe condition <|> sortPipe)]

/-! ## Whole texts -/

def endOfInput : Matcher :=
  leaf .endOfInput fun s => if s.isEmpty then some ("", []) else none

def queryOf (condition : Matcher) : Matcher :=
  branch .query <|
    row [spaced (body condition), repeated (spaced (pipe condition)), spaced endOfInput]

/-- The tree of a whole text. -/
def query (text : List Char) : Matcher := queryOf (condition (text.length + 1))

end EventQuery.Grammar.Rules
