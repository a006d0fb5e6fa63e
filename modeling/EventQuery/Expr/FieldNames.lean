import EventQuery.Expr.BottomUp

/-!
# Column names

A namer gives the column for the name of a field, or says why there is
none. The pass `Expr.nameFields` applies one to every symbol.
-/

namespace EventQuery

abbrev Namer := String → Except FieldNameError String

namespace Namer

def identity : Namer := fun name => .ok name

/-- The path of a field as one quoted identifier: points become double
colons, and a quote inside is doubled. -/
def columnPathText (name : String) : String :=
  let body := name.toList.flatMap fun c =>
    if c = '.' then [':', ':'] else if c = '"' then ['"', '"'] else [c]
  String.ofList ('"' :: body ++ ['"'])

def columnPath : Namer := fun name => .ok (columnPathText name)

/-- Every occurrence of `target` replaced. An empty target occurs before
every character and at the end. -/
def replaceAll (target replacement : List Char) : Nat → List Char → List Char
  | _, [] => if target.isEmpty then replacement else []
  | 0, s => s
  | fuel + 1, c :: s =>
    if target.isEmpty then replacement ++ c :: replaceAll target replacement fuel s
    else if target.isPrefixOf (c :: s) then
      replacement ++ replaceAll target replacement fuel ((c :: s).drop target.length)
    else c :: replaceAll target replacement fuel s

def replacing (target replacement : String) : Namer := fun name =>
  .ok (String.ofList
    (replaceAll target.toList replacement.toList name.length name.toList))

/-- Refuse the names that start with `start`. -/
def denying (start reason : String) : Namer := fun name =>
  if start.toList.isPrefixOf name.toList then .error (.invalid name reason) else .ok name

end Namer

namespace Expr

def nameFieldStep (namer : Namer) : Expr → Except SoftError Expr
  | .symbol name =>
    match namer name with
    | .ok column => .ok (.symbol column)
    | .error e => .error (.fieldName e)
  | e => .ok e

def nameFields (namer : Namer) (e : Expr) : Mapped Expr :=
  e.bottomUp (nameFieldStep namer)

end Expr

end EventQuery
