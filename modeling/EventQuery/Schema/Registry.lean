import EventQuery.Expr.FieldNames
import EventQuery.Schema.Basic

/-!
# The field registry

A registry holds field definitions in the order of their registration
and a table of names: the paths of the fields and their aliases. The
`k`-th field has the id `k`. A name is taken once and for all.
-/

namespace EventQuery

inductive SchemaError where
  | fieldExists (name : String)
  | fieldNotFound (name : String)
  | aliasTargetNotFound (name target : String)
  deriving DecidableEq, Repr

def SchemaError.message : SchemaError → String
  | fieldExists name => "Field already exists: " ++ name
  | fieldNotFound name => "Field not found: " ++ name
  | aliasTargetNotFound name target =>
    "Alias '" ++ name ++ "' points to unknown field '" ++ target ++ "'"

/-- What a name stands for, and whether it was added as an alias. -/
structure NameEntry where
  id : Nat
  isAlias : Bool
  deriving DecidableEq, Repr

structure Registry where
  /-- Definitions, the one with id one first. -/
  fields : List FieldDef
  /-- Paths and aliases. -/
  names : List (String × NameEntry)
  deriving DecidableEq, Repr

namespace Registry

def empty : Registry := ⟨[], []⟩

def size (r : Registry) : Nat := r.fields.length

/-- The id a name stands for. -/
def id? (r : Registry) (name : String) : Option Nat :=
  (r.names.lookup name).map NameEntry.id

/-- The definition with an id. -/
def field? (r : Registry) (id : Nat) : Option FieldDef :=
  if id = 0 then none else r.fields[id - 1]?

def get? (r : Registry) (name : String) : Option FieldDef :=
  (r.id? name).bind r.field?

/-- The column a name stands for. -/
def resolve (r : Registry) (name : String) : Except SchemaError String :=
  match r.get? name with
  | some d => .ok d.column
  | none => .error (.fieldNotFound name)

/-- Was the name added as an alias? -/
def isAlias (r : Registry) (name : String) : Bool :=
  match r.names.lookup name with
  | some entry => entry.isAlias
  | none => false

/-- All definitions with their ids. -/
def list (r : Registry) : List (Nat × FieldDef) :=
  r.fields.zipIdx.map fun (d, i) => (i + 1, d)

/-- Add a field; gives its id. -/
def register (r : Registry) (d : FieldDef) : Except SchemaError (Nat × Registry) :=
  match r.id? d.path with
  | some _ => .error (.fieldExists d.path)
  | none =>
    let id := r.size + 1
    .ok (id, ⟨r.fields ++ [d.withColumn], r.names ++ [(d.path, ⟨id, false⟩)]⟩)

/-- Add a further name for a known one; gives the id of its field. -/
def registerAlias (r : Registry) (name target : String) : Except SchemaError (Nat × Registry) :=
  match r.id? target with
  | none => .error (.aliasTargetNotFound name target)
  | some id =>
    match r.id? name with
    | some _ => .error (.fieldExists name)
    | none => .ok (id, { r with names := r.names ++ [(name, ⟨id, true⟩)] })

def registerAll (r : Registry) (fields : List FieldDef) : Except SchemaError Registry :=
  fields.foldlM (fun r d => (·.2) <$> r.register d) r

def registerAliases (r : Registry) (aliases : List (String × String)) :
    Except SchemaError Registry :=
  aliases.foldlM (fun r (name, target) => (·.2) <$> r.registerAlias name target) r

/-- The registry of some fields and then some aliases. -/
def build (fields : List FieldDef) (aliases : List (String × String)) :
    Except SchemaError Registry := do
  (← empty.registerAll fields).registerAliases aliases

/-- Fields are named by their columns. -/
def namer (r : Registry) : Namer := fun name =>
  match r.resolve name with
  | .ok column => .ok column
  | .error _ => .error (.unknown name)

end Registry

end EventQuery
