import EventQuery.Schema.Registry
import EventQuery.Filter

/-!
# The sample workload

Seven queries and a schema for them, on which the time from a query to its
filter is measured.
-/

namespace EventQuery.Latency

def queries : List String :=
  [ "process where true",
    "process where process.name == \"cmd.exe\"",
    "process where process.pid in (1, 2, 3, 4, 5, 6, 7, 8)",
    "file where file.path like~ (\"C:\\\\Windows\\\\*\", \"*.dll\", \"*.exe\")",
    "network where cidrMatch(source.ip, \"10.0.0.0/8\", \"192.168.0.0/16\")",
    "process where startsWith~(process.name, \"power\") and not endsWith(process.name, \".bak\")",
    "any where (a + b) * 2 > 10 or length(user.name) == 0" ]

def fields : List FieldDef :=
  [ ⟨"event.category", "category", .string, none⟩,
    ⟨"process.name", "proc_name", .string, none⟩,
    ⟨"process.pid", "proc_pid", .uint64, none⟩,
    ⟨"file.path", "file_path", .string, none⟩,
    ⟨"source.ip", "src_ip", .ip, none⟩,
    ⟨"user.name", "user_name", .string, none⟩,
    ⟨"a", "a", .int64, none⟩,
    ⟨"b", "b", .int64, none⟩ ]

/-- The fields in a registry. -/
def registry : Except SchemaError Registry := Registry.build fields []

/-- The filters of the workload. -/
def run (extractParameters : Bool) : Except SchemaError (List (Except Failure Filter)) := do
  let r ← registry
  let options : Options :=
    { namer := some r.namer, extractParameters := extractParameters }
  return queries.map (Filter.ofText options)

end EventQuery.Latency
