import EventQuery.Config.Settings
import EventQuery.Json.Parser
import EventQuery.Schema.Json
import EventQuery.Text.Blank

/-!
# Configuration files

A configuration is blank, which gives the default settings, or a JSON
object. A text setting accepts any scalar and takes its source text; a
flag must be `true` or `false`. Unknown and repeated members are errors,
except inside a field definition, where unknown ones are ignored.
-/

namespace EventQuery

/-- Are all names known? -/
def onlyKeys (known : List String) (members : List (String × Json)) : Bool :=
  members.all fun (key, _) => known.contains key

/-- A member with a default. -/
def settingOr {α : Type} (members : List (String × Json)) (key : String)
    (read : Json → Option α) (default : α) : Option α := do
  match ← Json.single? members key with
  | none => return default
  | some j => read j

namespace SchemaSettings

def aliasOf? : String × Json → Option (String × String)
  | (name, j) => j.scalarText?.map (name, ·)

def aliasesOf? (j : Json) : Option (NameMap String) := do
  let entries ← (← j.members?).mapM aliasOf?
  return .ofList entries

def fieldsOf? (j : Json) : Option (List FieldDef) := do
  (← j.items?).mapM (FieldDef.ofJson? .setting)

def ofJson? (j : Json) : Option SchemaSettings := do
  let members ← j.members?
  guard (onlyKeys ["fields", "aliases"] members)
  let fields ← settingOr members "fields" fieldsOf? []
  let aliases ← settingOr members "aliases" aliasesOf? .empty
  return ⟨fields, aliases⟩

def json (s : SchemaSettings) : Json :=
  .object
    [("fields", .array (s.fields.map FieldDef.json)),
     ("aliases", .object (s.aliases.entries.map fun (name, target) => (name, .string target)))]

end SchemaSettings

namespace Settings

def keys : List String :=
  ["category_field", "extract_parameters", "strict", "field_names", "table", "schema"]

def namingOf? (j : Json) : Option Naming := j.string?.bind Naming.ofKey?

def ofJson? (j : Json) : Option Settings := do
  let members ← j.members?
  guard (onlyKeys keys members)
  let base : Settings := {}
  return {
    categoryField := ← settingOr members "category_field" Json.scalarText? base.categoryField
    extractParameters := ← settingOr members "extract_parameters" Json.bool? base.extractParameters
    strict := ← settingOr members "strict" Json.bool? base.strict
    naming := ← settingOr members "field_names" namingOf? base.naming
    table := ← settingOr members "table" Json.scalarText? base.table
    schema := ← settingOr members "schema" SchemaSettings.ofJson? base.schema }

/-- The settings of a configuration text. -/
def ofText? (text : String) : Option Settings :=
  if Text.allBlank text then some {}
  else (Json.ofText? text).bind ofJson?

def json (s : Settings) : Json :=
  .object
    [("category_field", .string s.categoryField),
     ("extract_parameters", .bool s.extractParameters),
     ("strict", .bool s.strict),
     ("field_names", .string s.naming.key),
     ("table", .string s.table),
     ("schema", s.schema.json)]

end Settings

end EventQuery
