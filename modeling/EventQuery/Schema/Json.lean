import EventQuery.Json.Basic
import EventQuery.Schema.Basic

/-!
# Field definitions as JSON

A definition is an object with the members `path` and `data_type`, and
perhaps `column` and `description`. Other members are ignored.

Where a definition stands by itself it may also be compact: the list of
its values in the order path, column, type and description, of which the
last may be missing, and for the type an object whose one member is named
for the type and null. Inside a configuration there are no compact forms,
but any scalar counts as a text there. `FieldDef.Form` is this difference.
-/

namespace EventQuery

namespace FieldDef

/-- The rules under which a definition is read. -/
structure Form where
  /-- The text of a value that counts as one. -/
  text? : Json → Option String
  /-- Are compact forms allowed? -/
  compact : Bool

namespace Form

/-- Definitions by themselves. -/
def plain : Form := ⟨Json.string?, true⟩

/-- Definitions inside a configuration. -/
def setting : Form := ⟨Json.scalarText?, false⟩

/-- The column; a missing one is empty. -/
def column? (form : Form) : Option Json → Option String
  | none => some ""
  | some j => form.text? j

def dataType? (form : Form) : Json → Option DataType
  | .string key => DataType.ofKey? key
  | .object [(key, .null)] => if form.compact then DataType.ofKey? key else none
  | _ => none

/-- The description; a missing one, or null, is none. -/
def description? (form : Form) : Option Json → Option (Option String)
  | none => some none
  | some .null => some none
  | some j => (form.text? j).map some

/-- A definition from its values. -/
def ofValues? (form : Form) (path : Json) (column : Option Json) (dataType : Json)
    (description : Option Json) : Option FieldDef := do
  return ⟨← form.text? path, ← form.column? column, ← form.dataType? dataType,
    ← form.description? description⟩

def ofMembers? (form : Form) (members : List (String × Json)) : Option FieldDef := do
  let path ← ← Json.single? members "path"
  let dataType ← ← Json.single? members "data_type"
  form.ofValues? path (← Json.single? members "column") dataType
    (← Json.single? members "description")

def ofItems? (form : Form) : List Json → Option FieldDef
  | [path, column, dataType] => form.ofValues? path (some column) dataType none
  | [path, column, dataType, description] =>
    form.ofValues? path (some column) dataType (some description)
  | _ => none

end Form

def ofJson? (form : Form) : Json → Option FieldDef
  | .object members => form.ofMembers? members
  | .array items => if form.compact then form.ofItems? items else none
  | _ => none

def json (d : FieldDef) : Json :=
  .object <|
    [("path", .string d.path), ("column", .string d.column),
     ("data_type", .string d.dataType.key)]
    ++ match d.description with
      | some text => [("description", .string text)]
      | none => []

end FieldDef

end EventQuery
