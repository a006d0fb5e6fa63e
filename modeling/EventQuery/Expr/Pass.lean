import EventQuery.Expr.Dialect
import EventQuery.Expr.FieldNames
import EventQuery.Expr.Rewrite

/-!
# Passes

The three passes under one roof. A pass may be applied to several trees
in turn; a `Session` is the pass with what it has gathered by then: the
errors nobody has asked for yet, or the parameters of all trees, whose
numbers run on.
-/

namespace EventQuery

inductive Pass where
  | fieldNames (namer : Namer)
  | dialect
  | parameters

namespace Pass

def name : Pass → String
  | fieldNames _ => "field_names"
  | dialect => "dialect"
  | parameters => "parameters"

def takesParameters : Pass → Bool
  | parameters => true
  | _ => false

end Pass

inductive Session where
  | fieldNames (namer : Namer) (errors : List SoftError)
  | dialect (errors : List SoftError)
  | parameters (gathered : Extraction)

namespace Session

def start : Pass → Session
  | .fieldNames namer => .fieldNames namer []
  | .dialect => .dialect []
  | .parameters => .parameters .start

def pass : Session → Pass
  | .fieldNames namer _ => .fieldNames namer
  | .dialect _ => .dialect
  | .parameters _ => .parameters

/-- Send a tree through the pass. -/
def apply (s : Session) (e : Expr) : Expr × Session :=
  match s with
  | .fieldNames namer errors =>
    let (e', errors) := (e.rewrite (Expr.recording (Expr.nameFieldStep namer))).run errors
    (e', .fieldNames namer errors)
  | .dialect errors =>
    let (e', errors) := (e.rewrite (Expr.recording Dialect.step)).run errors
    (e', .dialect errors)
  | .parameters gathered =>
    let (e', gathered) := (e.rewrite Extraction.visit).run gathered
    (e', .parameters gathered)

/-- Hand over the errors gathered since the last time. -/
def takeErrors : Session → List SoftError × Session
  | .fieldNames namer errors => (errors, .fieldNames namer [])
  | .dialect errors => (errors, .dialect [])
  | .parameters gathered => ([], .parameters gathered)

/-- The parameters, for the pass that takes them. -/
def parameters? : Session → Option (NameMap Const)
  | .parameters gathered => some gathered.parameters
  | _ => none

end Session

end EventQuery
