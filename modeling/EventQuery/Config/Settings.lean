import EventQuery.NameMap
import EventQuery.Schema.Registry
import EventQuery.Filter

/-!
# Settings

What a configuration says: the category field, how fields are named, how
strictly soft errors are taken, the table of statements, and a schema.
The command line may override single settings.
-/

namespace EventQuery

/-- How fields become columns. -/
inductive Naming where
  | identity
  | columnPath
  | schema
  deriving DecidableEq, Repr

namespace Naming

/-- The word in a configuration. -/
def key : Naming → String
  | identity => "identity"
  | columnPath => "column_path"
  | schema => "schema"

/-- The word on the command line. -/
def option : Naming → String
  | identity => "identity"
  | columnPath => "column-path"
  | schema => "schema"

def all : List Naming := [identity, columnPath, schema]

def ofKey? (key : String) : Option Naming := all.find? fun n => n.key == key

def ofOption? (option : String) : Option Naming := all.find? fun n => n.option == option

end Naming

structure SchemaSettings where
  fields : List FieldDef := []
  aliases : NameMap String := .empty

/-- The registry of a configured schema. Aliases come in the order of
their names. -/
def SchemaSettings.registry (s : SchemaSettings) : Except SchemaError Registry :=
  Registry.build s.fields s.aliases.entries

structure Settings where
  categoryField : String := "event.category"
  extractParameters : Bool := false
  strict : Bool := false
  naming : Naming := .identity
  table : String := "events"
  schema : SchemaSettings := {}

/-- Settings given beside the configuration. A flag can only be set. -/
structure Overrides where
  categoryField : Option String := none
  naming : Option Naming := none
  extractParameters : Bool := false
  strict : Bool := false
  table : Option String := none

namespace Settings

def override (s : Settings) (o : Overrides) : Settings where
  categoryField := o.categoryField.getD s.categoryField
  extractParameters := s.extractParameters || o.extractParameters
  strict := s.strict || o.strict
  naming := o.naming.getD s.naming
  table := o.table.getD s.table
  schema := s.schema

/-- Why settings cannot be used. -/
inductive Problem where
  | emptySchema
  | schema (e : SchemaError)
  deriving DecidableEq, Repr

def Problem.message : Problem → String
  | emptySchema => "field_names is 'schema' but no schema fields are configured"
  | schema e => "Invalid schema: " ++ e.message

/-- The namer of the settings. -/
def namer (s : Settings) : Except Problem (Option Namer) :=
  match s.naming with
  | .identity => .ok none
  | .columnPath => .ok (some Namer.columnPath)
  | .schema =>
    if s.schema.fields.isEmpty then .error .emptySchema
    else
      match s.schema.registry with
      | .ok r => .ok (some r.namer)
      | .error e => .error (.schema e)

def options (s : Settings) : Except Problem Options := do
  return {
    categoryField := s.categoryField
    namer := ← s.namer
    extractParameters := s.extractParameters }

end Settings

end EventQuery
