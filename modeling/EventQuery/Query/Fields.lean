import EventQuery.Query.Basic

/-!
# Fields of a query

Every field that a query mentions, in source order and with repetitions:
those of the body first, then those of the pipes.
-/

namespace EventQuery

def Field.text (f : Field) : String :=
  (if f.optional then "?" else "") ++ f.name

mutual

def Value.fields : Value → List Field
  | .null => []
  | .literal _ => []
  | .field f => [f]
  | .call _ args => Value.listFields args
  | .group v => v.fields
  | .arith _ left right => left.fields ++ right.fields

def Value.listFields : List Value → List Field
  | [] => []
  | v :: vs => v.fields ++ Value.listFields vs

end

def LookupTarget.fields : LookupTarget → List Field
  | .list _ => []
  | .value v => v.fields

def Condition.fields : Condition → List Field
  | .boolean _ => []
  | .not c => c.fields
  | .group c => c.fields
  | .comparison _ left right => left.fields ++ right.fields
  | .lookup field _ _ target => field :: target.fields
  | .call _ args => Value.listFields args
  | .notCall _ args => Value.listFields args
  | .logical _ left right => left.fields ++ right.fields

def SimpleQuery.fields (q : SimpleQuery) : List Field :=
  (q.condition.map Condition.fields).getD []

def SequenceStep.fields (s : SequenceStep) : List Field :=
  s.query.fields ++ s.keys

def Body.fields {ι : Type} : Body ι → List Field
  | .simple q => q.fields
  | .sequence q => q.keys ++ q.steps.flatMap SequenceStep.fields
  | .sample q => q.keys ++ q.steps.flatMap SimpleQuery.fields

def Pipe.fields {κ : Type} : Pipe κ → List Field
  | .head _ => []
  | .tail _ => []
  | .count => []
  | .unique fields => fields
  | .filter condition => condition.fields
  | .sort fields => fields

def QueryOf.fields {κ ι : Type} (q : QueryOf κ ι) : List Field :=
  q.body.fields ++ q.pipes.flatMap Pipe.fields

end EventQuery
