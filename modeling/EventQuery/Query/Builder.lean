import EventQuery.Query.Precedence
import EventQuery.Query.Report

/-!
# Queries from parse trees

The builder walks a parse tree and gives the query that it stands for. It
takes any tree at all and knows nothing of the grammar: where a tree is not
of the shape it looks for, the walk ends with a `Mismatch`.

A count or a time span that is no quantity does not end the walk. It is
reported on the way, and the walk goes on with a number in its place.
-/

namespace EventQuery.Builder

open Grammar

/-- What a part of a tree is built to. -/
abbrev Built := Except Mismatch

/-- The first node inside that is no keyword. -/
def argument (n : ParseNode) (what : String) : Built ParseNode :=
  match n.significant with
  | [] => .error (.missing n what)
  | arg :: _ => .ok arg

/-! ## Fields and literals -/

/-- What is known of a field so far: is it optional, and its name. -/
def fieldPart (known : Bool × Option String) (n : ParseNode) : Built (Bool × Option String) :=
  match n.symbol with
  | .optionalMarker => .ok (true, known.2)
  | .ident => .ok (known.1, some n.text)
  | _ => .error (.unexpected n)

def field (n : ParseNode) : Built Field := do
  match ← n.children.foldlM fieldPart (false, none) with
  | (marked, some name) => return ⟨name, marked⟩
  | (_, none) => throw (.missing n "field name")

def fieldList (n : ParseNode) : Built (List Field) := n.children.mapM field

def literal (n : ParseNode) : Built Literal :=
  match n.children with
  | [] => .error (.missing n "literal")
  | inner :: _ =>
    match inner.symbol with
    | .string => .ok (.string inner.text)
    | .number => .ok (.number inner.text)
    | .boolean => .ok (.boolean inner.text)
    | _ => .error (.unexpected inner)

def literalList (n : ParseNode) : Built (List Literal) := n.children.mapM literal

/-! ## Operators and function names -/

def arithOp (n : ParseNode) : Built ArithOp :=
  match n.symbol with
  | .add => .ok .add
  | .subtract => .ok .subtract
  | .multiply => .ok .multiply
  | .divide => .ok .divide
  | .modulo => .ok .modulo
  | _ => .error (.unexpected n)

/-- An operator that is read back from its spelling. -/
def operator {α : Type} (ofToken? : String → Option α) (n : ParseNode) : Built α :=
  match ofToken? n.text with
  | some op => .ok op
  | none => .error (.unexpected n)

def callName (n : ParseNode) : Built CallName :=
  match CallName.ofToken? n.text with
  | some name => .ok name
  | none => .error (.unknownFunction n)

/-! ## Values -/

mutual

def value : ParseNode → Built Value
  | ⟨symbol, left, text, children⟩ => do
    let (first, row) ← valueRow ⟨symbol, left, text, children⟩ children
    return .ofRow first row
termination_by structural n => n

/-- Operands and operators in a row. -/
def valueRow (parent : ParseNode) : List ParseNode → Built (Value × List (ArithOp × Value))
  | [] => .error (.missing parent "value")
  | term :: rest => do
    let first ← valueTerm term
    return (first, ← valueRest parent rest)
termination_by structural ns => ns

/-- The row after its first operand. -/
def valueRest (parent : ParseNode) : List ParseNode → Built (List (ArithOp × Value))
  | [] => .ok []
  | [_] => .error (.missing parent "value")
  | op :: term :: rest => do
    let op ← arithOp op
    let v ← valueTerm term
    return (op, v) :: (← valueRest parent rest)
termination_by structural ns => ns

def values : List ParseNode → Built (List Value)
  | [] => .ok []
  | n :: ns => do return (← value n) :: (← values ns)
termination_by structural ns => ns

/-- The parts of a call. -/
def callParts (parent : ParseNode) : List ParseNode → Built (CallName × List Value)
  | [] => .error (.missing parent "function name")
  | name :: args => do
    let name ← callName name
    return (name, ← values args)
termination_by structural ns => ns

def valueTerm : ParseNode → Built Value
  | ⟨symbol, left, text, children⟩ =>
    let n : ParseNode := ⟨symbol, left, text, children⟩
    match symbol with
    | .null => .ok .null
    | .literal => .literal <$> literal n
    | .call => do
      let (name, args) ← callParts n children
      return .call name args
    | .field => .field <$> field n
    | .valueGroup =>
      match children with
      | [] => .error (.missing n "value")
      | inner :: _ => .group <$> value inner
    | _ => .error (.unexpected n)
termination_by structural n => n

end

/-! ## Conditions -/

def comparison (n : ParseNode) : Built Condition :=
  match n.children with
  | [] => .error (.missing n "value")
  | [_] => .error (.missing n "comparison operator")
  | [_, _] => .error (.missing n "value")
  | left :: op :: right :: _ => do
    let op ← operator CompareOp.ofToken? op
    return .comparison op (← value left) (← value right)

def lookupTarget (n : ParseNode) : Built LookupTarget :=
  match n.symbol with
  | .literalList => .list <$> literalList n
  | .value => .value <$> value n
  | _ => .error (.unexpected n)

/-- The operator of a lookup and what comes after it. -/
def lookupRest (parent : ParseNode) (f : Field) (negated : Bool) : List ParseNode → Built Condition
  | [] => .error (.missing parent "lookup operator")
  | op :: rest => do
    let op ← operator LookupOp.ofToken? op
    match rest with
    | [] => throw (.missing parent "literal list or value")
    | target :: _ => return .lookup f negated op (← lookupTarget target)

def lookup (n : ParseNode) : Built Condition :=
  match n.children with
  | [] => .error (.missing n "field")
  | f :: rest => do
    let f ← field f
    match rest with
    | [] => throw (.missing n "lookup operator")
    | next :: rest' =>
      if next.symbol = .notOp then lookupRest n f true rest' else lookupRest n f false rest

/-- Two conditions with a connective between them. The connective is looked
at first. -/
def connect (left : Built Condition) (op : ParseNode) (right : Built Condition) :
    Built Condition := do
  let op ← operator LogicOp.ofToken? op
  return .logical op (← left) (← right)

/-- A condition after what may stand before it with a connective. -/
def joined : Option (Built Condition × ParseNode) → Built Condition → Built Condition
  | none, c => c
  | some (left, op), c => connect left op c

mutual

def condition : ParseNode → Built Condition
  | ⟨symbol, left, text, children⟩ =>
    conditionFrom ⟨symbol, left, text, children⟩ none 0 children
termination_by structural n => n

/-- A row of terms and connectives, with `nots` negations before it. -/
def conditionFrom (parent : ParseNode) (before : Option (Built Condition × ParseNode))
    (nots : Nat) : List ParseNode → Built Condition
  | [] => .error (.missing parent "condition")
  | n :: rest =>
    if n.symbol = .notOp then
      conditionFrom parent before (nots + 1) rest
    else
      conditionAfter parent (joined before (.negateTimes nots <$> conditionTerm n)) rest
termination_by structural ns => ns

/-- The row after a term. -/
def conditionAfter (parent : ParseNode) (left : Built Condition) : List ParseNode → Built Condition
  | [] => left
  | op :: rest =>
    if op.symbol = .logicOp then conditionFrom parent (some (left, op)) 0 rest
    else .error (.unexpected op)
termination_by structural ns => ns

def conditionTerm : ParseNode → Built Condition
  | ⟨symbol, left, text, children⟩ =>
    let n : ParseNode := ⟨symbol, left, text, children⟩
    match symbol with
    | .boolean => .ok (.boolean text)
    | .comparison => comparison n
    | .lookup => lookup n
    | .call => do
      let (name, args) ← callParts n children
      return .call name args
    | .conditionGroup =>
      match children with
      | [] => .error (.missing n "condition")
      | inner :: _ => .group <$> condition inner
    | _ => .error (.unexpected n)
termination_by structural n => n

end

/-! ## Queries -/

def category (n : ParseNode) : Built Category :=
  match n.children with
  | [] => .error (.missing n "category")
  | inner :: _ =>
    match inner.symbol with
    | .any => .ok .any
    | .ident => .ok (.name inner.text)
    | .string => .ok (.quoted inner.text)
    | _ => .error (.unexpected inner)

def simpleQuery (n : ParseNode) : Built SimpleQuery :=
  match n.significant with
  | [] => .error (.missing n "category")
  | c :: rest => do
    let c ← category c
    match rest with
    | [] => return ⟨c, none⟩
    | filter :: _ => return ⟨c, some (← condition filter)⟩

def byClause (n : ParseNode) : Built (List Field) := do
  fieldList (← argument n "field list")

def sequenceStep (n : ParseNode) : Built SequenceStep :=
  match n.children with
  | [] => .error (.missing n "query")
  | q :: rest => do
    let q ← simpleQuery q
    match rest with
    | [] => return ⟨q, []⟩
    | keys :: _ => return ⟨q, ← byClause keys⟩

def sampleStep (n : ParseNode) : Built SimpleQuery :=
  match n.children with
  | [] => .error (.missing n "query")
  | q :: _ => simpleQuery q

def samplePart (q : SampleQuery) (n : ParseNode) : Built SampleQuery :=
  match n.symbol with
  | .fieldList => return { q with keys := ← fieldList n }
  | .sampleStep => return { q with steps := q.steps ++ [← sampleStep n] }
  | _ => .error (.unexpected n)

def sampleQuery (n : ParseNode) : Built SampleQuery := n.significant.foldlM samplePart ⟨[], []⟩

/-! ## Quantities

From here on faults are reported on the way. -/

abbrev Reporting := ExceptT Mismatch (StateM (List QuantityFault))

def report (f : QuantityFault) : Reporting Unit := modify (· ++ [f])

/-- A count; zero for one that is no quantity. -/
def count (n : ParseNode) : Reporting Nat :=
  match Quantity.ofToken? n.text.toList with
  | some k => return k
  | none => do
    report (.count n.token)
    return 0

/-- An interval. It may be out of range by its number, or only by its length
in milliseconds. -/
def interval (n : ParseNode) : Reporting Interval := do
  let digits := n.text.toList.takeWhile Char.isDigit
  let suffix := n.text.toList.dropWhile Char.isDigit
  let unit := (IntervalUnit.ofSuffix? (String.ofList suffix)).getD .days
  match Quantity.ofToken? digits with
  | none =>
    report (.span n.token)
    return ⟨0, unit⟩
  | some number =>
    let i : Interval := ⟨number, unit⟩
    if i.millis?.isNone then
      report (.span n.token)
    return i

def sequencePart (q : SequenceQuery Interval) (n : ParseNode) :
    Reporting (SequenceQuery Interval) :=
  match n.symbol with
  | .sequenceBy => return { q with keys := ← byClause n }
  | .maxspan => return { q with maxspan := some (← interval (← argument n "interval")) }
  | .sequenceStep => return { q with steps := q.steps ++ [← sequenceStep n] }
  | _ => throw (.unexpected n)

def sequenceQuery (n : ParseNode) : Reporting (SequenceQuery Interval) :=
  n.significant.foldlM sequencePart ⟨[], none, []⟩

def stage (n : ParseNode) : Reporting (Pipe Nat) :=
  match n.symbol with
  | .headPipe => return .head (← count (← argument n "number"))
  | .tailPipe => return .tail (← count (← argument n "number"))
  | .countPipe => return .count
  | .uniquePipe => return .unique (← fieldList (← argument n "field list"))
  | .sortPipe => return .sort (← fieldList (← argument n "field list"))
  | .filterPipe => return .filter (← condition (← argument n "condition"))
  | _ => throw (.unexpected n)

def pipe (n : ParseNode) : Reporting (Pipe Nat) :=
  match n.children with
  | [] => throw (.missing n "pipe")
  | inner :: _ => stage inner

/-- What is known of a query so far. -/
structure Parts where
  body : Option (Body Interval)
  pipes : List (Pipe Nat)

def queryPart (q : Parts) (n : ParseNode) : Reporting Parts :=
  match n.symbol with
  | .simpleQuery => return { q with body := some (.simple (← simpleQuery n)) }
  | .sequenceQuery => return { q with body := some (.sequence (← sequenceQuery n)) }
  | .sampleQuery => return { q with body := some (.sample (← sampleQuery n)) }
  | .pipe => return { q with pipes := q.pipes ++ [← pipe n] }
  | .endOfInput => return q
  | _ => throw (.unexpected n)

def query (n : ParseNode) : Reporting Query := do
  let q ← n.children.foldlM queryPart ⟨none, []⟩
  match q.body with
  | some body => return ⟨body, q.pipes⟩
  | none => throw (.missing n "query")

end EventQuery.Builder
