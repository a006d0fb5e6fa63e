import EventQuery.Schema.Registry
import EventQuery.Table

/-!
# The field store

The state of a registry that takes requests while it is in use: the
definitions by id, the ids by name, the aliases among the names, and the
next id to give out. `Registry` is the value such a store stands for; a
configured schema, which is fixed once it is read, is kept as that value.

A call reads and writes the store. One that fails leaves behind whatever
it has written by then.
-/

namespace EventQuery

structure Store where
  /-- Definitions by id. -/
  fields : Table UInt32 FieldDef
  /-- Ids of paths and aliases. -/
  paths : Table String UInt32
  /-- Ids of the aliases alone. -/
  aliases : Table String UInt32
  /-- The id of the next field. -/
  nextId : UInt32

namespace Store

/-- Ids begin at one. -/
def empty : Store := ⟨.empty, .empty, .empty, 1⟩

/-- A call on a store; what was written survives a failure. -/
abbrev Call (α : Type) : Type := ExceptT SchemaError (StateM Store) α

/-! ## Look-ups -/

/-- The id a name stands for. -/
def id? (s : Store) (name : String) : Option UInt32 := s.paths.get? name

def get? (s : Store) (name : String) : Option FieldDef := do
  s.fields.get? (← s.id? name)

/-- The column a name stands for. -/
def resolve (s : Store) (name : String) : Except SchemaError String :=
  match s.get? name with
  | some d => .ok d.column
  | none => .error (.fieldNotFound name)

/-- Was the name added as an alias? -/
def isAlias (s : Store) (name : String) : Bool := s.aliases.contains name

/-- All definitions by increasing id. -/
def list (s : Store) : List (UInt32 × FieldDef) :=
  s.fields.entries.mergeSort fun a b => a.1 ≤ b.1

/-- The number of fields, aliases left out. -/
def size (s : Store) : Nat := s.fields.size

/-- Fields are named by their columns. -/
def namer (s : Store) : Namer := fun name =>
  match s.resolve name with
  | .ok column => .ok column
  | .error _ => .error (.unknown name)

/-! ## Calls -/

/-- Take the next id. The counter wraps. -/
def fetchId : Call UInt32 := do
  let id := (← get).nextId
  modify fun s => { s with nextId := id + 1 }
  return id

/-- Give an id to a name. -/
def bindPath (name : String) (id : UInt32) : Call Unit :=
  modify fun s => { s with paths := s.paths.insert name id }

/-- Add a field; gives its id. -/
def register (d : FieldDef) : Call UInt32 := do
  let d := d.withColumn
  if (← get).paths.contains d.path then
    throw (.fieldExists d.path)
  else
    let id ← fetchId
    bindPath d.path id
    modify fun s => { s with fields := s.fields.insert id d }
    return id

/-- Add a further name for a known one; gives the id of its field. -/
def registerAlias (name target : String) : Call UInt32 := do
  match (← get).id? target with
  | none => throw (.aliasTargetNotFound name target)
  | some id =>
    if (← get).paths.contains name then
      throw (.fieldExists name)
    else
      bindPath name id
      modify fun s => { s with aliases := s.aliases.insert name id }
      return id

/-- Add some fields and then some aliases. -/
def registerAll (fields : List FieldDef) (aliases : List (String × String)) : Call Unit := do
  forM fields fun d => discard (register d)
  forM aliases fun (name, target) => discard (registerAlias name target)

/-- The store of some fields and some aliases. -/
def build (fields : List FieldDef) (aliases : List (String × String)) :
    Except SchemaError Store :=
  let (outcome, s) := (registerAll fields aliases).run.run empty
  outcome.map fun _ => s

end Store

end EventQuery
