/-!
# Grammar symbols

The symbols of the grammar that a report of a failure can name. `all`
lists them in the order in which reports name them. `label` is the word
for a symbol: a description where one exists, else the symbol's own name.
Several symbols may share a label.
-/

namespace EventQuery.Grammar

inductive Symbol where
  | endOfInput
  | query
  | simpleQuery
  | sequenceQuery
  | sequenceBy
  | maxspan
  | sequenceStep
  | sampleQuery
  | sampleStep
  | pipe
  | headPipe
  | tailPipe
  | countPipe
  | uniquePipe
  | filterPipe
  | sortPipe
  | condition
  | comparison
  | lookup
  | conditionGroup
  | compareOp
  | lookupOp
  | logicOp
  | notOp
  | value
  | valueGroup
  | add
  | subtract
  | multiply
  | divide
  | modulo
  | call
  | callName
  | category
  | any
  | field
  | fieldList
  | optionalMarker
  | literal
  | literalList
  | null
  | boolean
  | number
  | interval
  | string
  | ident
  | kwWhere
  | kwSequence
  | kwSample
  | kwBy
  | kwWith
  | kwMaxspan
  | kwHead
  | kwTail
  | kwCount
  | kwUnique
  | kwFilter
  | kwSort
  deriving DecidableEq, Repr

namespace Symbol

def all : List Symbol :=
  [endOfInput, query, simpleQuery, sequenceQuery, sequenceBy, maxspan, sequenceStep,
   sampleQuery, sampleStep, pipe, headPipe, tailPipe, countPipe, uniquePipe,
   filterPipe, sortPipe, condition, comparison, lookup, conditionGroup, compareOp,
   lookupOp, logicOp, notOp, value, valueGroup, add, subtract, multiply, divide,
   modulo, call, callName, category, any, field, fieldList, optionalMarker, literal,
   literalList, null, boolean, number, interval, string, ident, kwWhere, kwSequence,
   kwSample, kwBy, kwWith, kwMaxspan, kwHead, kwTail, kwCount, kwUnique, kwFilter,
   kwSort]

def label : Symbol → String
  | endOfInput => "end of input"
  | query | simpleQuery => "query"
  | category | any => "category"
  | condition | comparison | lookup | conditionGroup => "condition"
  | value | valueGroup => "value"
  | compareOp => "comparison operator"
  | lookupOp => "lookup operator"
  | logicOp => "'and' or 'or'"
  | notOp => "'not'"
  | add | subtract | multiply | divide | modulo => "arithmetic operator"
  | call | callName => "function call"
  | field | ident => "field"
  | fieldList => "field list"
  | literal => "literal"
  | literalList => "literal list"
  | string => "string"
  | number => "number"
  | boolean => "boolean"
  | null => "null"
  | interval => "interval"
  | pipe => "pipe"
  | kwWhere => "'where'"
  | kwBy => "'by'"
  | kwWith => "'with'"
  | kwMaxspan => "'maxspan'"
  | sequenceQuery => "sequence_query"
  | sequenceBy => "sequence_by"
  | maxspan => "maxspan"
  | sequenceStep => "sequence_step"
  | sampleQuery => "sample_query"
  | sampleStep => "sample_step"
  | headPipe => "head_pipe"
  | tailPipe => "tail_pipe"
  | countPipe => "count_pipe"
  | uniquePipe => "unique_pipe"
  | filterPipe => "filter_pipe"
  | sortPipe => "sort_pipe"
  | optionalMarker => "optional_marker"
  | kwSequence => "kw_sequence"
  | kwSample => "kw_sample"
  | kwHead => "kw_head"
  | kwTail => "kw_tail"
  | kwCount => "kw_count"
  | kwUnique => "kw_unique"
  | kwFilter => "kw_filter"
  | kwSort => "kw_sort"

/-- Keywords say what comes next and have no part in the meaning. -/
def isKeyword : Symbol → Bool
  | kwWhere | kwSequence | kwSample | kwBy | kwWith | kwMaxspan | kwHead | kwTail | kwCount
  | kwUnique | kwFilter | kwSort => true
  | _ => false

/-- The symbols that occur in `symbols`, each once, in the order of `all`. -/
def inOrder (symbols : List Symbol) : List Symbol :=
  all.filter fun s => symbols.contains s

end Symbol

/-- `A`, `A or B`, `A, B, or C`. -/
def alternatives : List String → String
  | [] => ""
  | [a] => a
  | [a, b] => a ++ " or " ++ b
  | labels => String.intercalate ", " labels.dropLast ++ ", or " ++ labels.getLastD ""

/-- The report of a failure where one of `symbols` was expected. -/
def expectedMessage (symbols : List Symbol) : String :=
  "expected " ++ alternatives ((Symbol.inOrder symbols).map Symbol.label)

end EventQuery.Grammar
