/-!
# Field definitions
-/

namespace EventQuery

inductive DataType where
  | int64
  | uint64
  | float64
  | string
  | bool
  | datetime
  | ip
  | array
  deriving DecidableEq, Repr

namespace DataType

/-- The name in definitions. -/
def key : DataType → String
  | int64 => "int64"
  | uint64 => "uint64"
  | float64 => "float64"
  | string => "string"
  | bool => "bool"
  | datetime => "datetime"
  | ip => "ip"
  | array => "array"

/-- The name for people. -/
def text : DataType → String
  | int64 => "Int64"
  | uint64 => "UInt64"
  | float64 => "Float64"
  | string => "String"
  | bool => "Bool"
  | datetime => "DateTime"
  | ip => "IP"
  | array => "Array"

def all : List DataType := [int64, uint64, float64, string, bool, datetime, ip, array]

def ofKey? (key : String) : Option DataType :=
  all.find? fun t => t.key == key

end DataType

/-- A field of the schema. -/
structure FieldDef where
  path : String
  /-- The column; empty means the path itself. -/
  column : String
  dataType : DataType
  description : Option String
  deriving DecidableEq, Repr

/-- The definition with its column filled in. -/
def FieldDef.withColumn (d : FieldDef) : FieldDef :=
  if d.column.isEmpty then { d with column := d.path } else d

end EventQuery
