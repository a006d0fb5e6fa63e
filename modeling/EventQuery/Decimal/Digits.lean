/-!
# Runs of digits

Decimal digits at the front of a text and the number they spell.
-/

namespace EventQuery.Digits

/-- Is this a nonempty run of digits and nothing else? -/
def isRun (s : List Char) : Bool := !s.isEmpty && s.all Char.isDigit

/-- The number that a run of digits spells. -/
def value (digits : List Char) : Nat :=
  digits.foldl (fun n c => 10 * n + (c.toNat - '0'.toNat)) 0

/-- The longest run of digits at the front of a text, if there is one. -/
def scan (s : List Char) : Option (List Char × List Char) :=
  match s.takeWhile Char.isDigit with
  | [] => none
  | digits => some (digits, s.dropWhile Char.isDigit)

end EventQuery.Digits
