import EventQuery.Decimal.Layout

/-!
# Durations

The text of a duration: nanoseconds below a microsecond, microseconds
below a millisecond, else milliseconds, the latter two with two places.
The number of nanoseconds is divided as a floating-point number.
-/

namespace EventQuery.Latency

/-- A natural as the nearest floating-point number, divided by another
natural and rounded again. -/
def quotient (n divisor : Nat) : Binary64 :=
  match Binary64.nearest false n 1 with
  | .finite _ m e =>
    let (num, den) := Binary64.toRatio m e
    Binary64.nearest false num (den * divisor)
  | x => x

def durationText (nanos : Nat) : String :=
  if nanos < 1000 then toString nanos ++ "ns"
  else if nanos < 1000000 then (quotient nanos 1000).fixed2 ++ "µs"
  else (quotient nanos 1000000).fixed2 ++ "ms"

end EventQuery.Latency
