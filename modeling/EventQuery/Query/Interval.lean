import EventQuery.Decimal.Digits

/-!
# Quantities

Counts and intervals are 64-bit: a count is below `Quantity.limit`, and
so is the length of an interval in milliseconds.
-/

namespace EventQuery

namespace Quantity

/-- Quantities stay below this bound. -/
def limit : Nat := Nat.pow 2 64

/-- A count is a nonempty run of digits below the limit: no sign, no
fraction and no exponent. -/
def ofToken? (token : List Char) : Option Nat :=
  if Digits.isRun token ∧ Digits.value token < limit then some (Digits.value token) else none

end Quantity

inductive IntervalUnit where
  | milliseconds
  | seconds
  | minutes
  | hours
  | days
  deriving DecidableEq, Repr

namespace IntervalUnit

def suffix : IntervalUnit → String
  | milliseconds => "ms"
  | seconds => "s"
  | minutes => "m"
  | hours => "h"
  | days => "d"

def tag : IntervalUnit → String
  | milliseconds => "Milliseconds"
  | seconds => "Seconds"
  | minutes => "Minutes"
  | hours => "Hours"
  | days => "Days"

/-- The unit in milliseconds. -/
def factor : IntervalUnit → Nat
  | milliseconds => 1
  | seconds => 1000
  | minutes => 60000
  | hours => 3600000
  | days => 86400000

/-- All units; the longer of two suffixes that begin alike comes first. -/
def all : List IntervalUnit :=
  [milliseconds, seconds, minutes, hours, days]

def ofSuffix? (suffix : String) : Option IntervalUnit :=
  all.find? fun u => u.suffix == suffix

end IntervalUnit

/-- A duration as it is written: a number and a unit. -/
structure Interval where
  value : Nat
  unit : IntervalUnit
  deriving DecidableEq, Repr

namespace Interval

/-- The length in milliseconds, if it stays below the limit. -/
def millis? (i : Interval) : Option Nat :=
  let total := i.value * i.unit.factor
  if total < Quantity.limit then some total else none

/-- Read digits followed by a unit. Only an interval whose number and
whose length in milliseconds are both quantities is accepted. -/
def ofToken? (token : List Char) : Option Interval := do
  let value ← Quantity.ofToken? (token.takeWhile Char.isDigit)
  let unit ← IntervalUnit.ofSuffix? (String.ofList (token.dropWhile Char.isDigit))
  let interval : Interval := ⟨value, unit⟩
  let _ ← interval.millis?
  return interval

end Interval

end EventQuery
