import EventQuery.Decimal.Binary64

/-!
# Shortest decimals

The decimal with the fewest digits that is nearest to a given binary
number among all binary numbers, and among those the one closest to the
number itself.

The reals that round to `m · 2 ^ q` form an interval around it, its ends
included iff `m` is even. For one, two, three … digits the search looks
at the two neighbours of the number on that decimal grid; if any point of
the grid lies in the interval, one of the two does.
-/

namespace EventQuery

/-- The decimal `0.d₁d₂…dₙ · 10 ^ point`, with digits as one natural of
`n` digits. -/
structure Decimal where
  digits : Nat
  point : Int
  deriving DecidableEq, Repr

namespace Decimal

/-- The number of decimal digits of a natural; none for zero. -/
def digitCount (n : Nat) : Nat :=
  if n = 0 then 0 else (Nat.toDigits 10 n).length

/-- Remove at most `fuel` trailing zeros. -/
def stripZeros : Nat → Nat → Nat
  | 0, n => n
  | fuel + 1, n => if n ≠ 0 ∧ n % 10 = 0 then stripZeros fuel (n / 10) else n

/-- The `p` with `10 ^ (p - 1) ≤ num / den < 10 ^ p`. A negative power of
ten would be the exception, but it is no binary number. -/
def pointOf (num den : Nat) : Int :=
  if den ≤ num then (digitCount (num / den) : Int)
  else 1 - (digitCount (den / num) : Int)

/-- A finite nonzero binary magnitude with the interval of reals that
round to it, all over one denominator. -/
structure Span where
  low : Nat
  value : Nat
  high : Nat
  den : Nat
  /-- Do the ends belong to the interval? -/
  closed : Bool

/-- Below a power of two the neighbouring number is half as far away. -/
def spanOf (mantissa : Nat) (exponent : Int) : Span :=
  let below := if mantissa = Nat.pow 2 52 ∧ Binary64.leastExponent < exponent then 1 else 2
  let (unit, den) := Binary64.toRatio 1 (exponent - 2)
  { low := (4 * mantissa - below) * unit
    value := 4 * mantissa * unit
    high := (4 * mantissa + 2) * unit
    den := den
    closed := mantissa % 2 = 0 }

/-- Is `a / b` at least the low end? -/
def Span.aboveLow (s : Span) (a b : Nat) : Bool :=
  if s.closed then s.low * b ≤ a * s.den else s.low * b < a * s.den

/-- Is `a / b` at most the high end? -/
def Span.belowHigh (s : Span) (a b : Nat) : Bool :=
  if s.closed then a * s.den ≤ s.high * b else a * s.den < s.high * b

/-- The unit of the decimal grid `10 ^ e` as a quotient of naturals. -/
def gridUnit (e : Int) : Nat × Nat :=
  if 0 ≤ e then (Nat.pow 10 e.toNat, 1) else (1, Nat.pow 10 (-e).toNat)

/-- The point of the grid `10 ^ e` that is closest to the number among
those in the interval, in units of the grid. -/
def Span.hit? (tie : Tie) (s : Span) (e : Int) : Option Nat :=
  let (a, b) := gridUnit e
  let floor := s.value * b / (s.den * a)
  let down := s.aboveLow (floor * a) b
  let up := s.belowHigh ((floor + 1) * a) b
  match down, up with
  | true, true => some (roundDiv tie (s.value * b) (s.den * a))
  | true, false => some floor
  | false, true => some (floor + 1)
  | false, false => none

/-- Search the grids with `n`, `n + 1`, … digits, `fuel` of them. -/
def search (tie : Tie) (s : Span) (point : Int) : Nat → Nat → Option (Nat × Int)
  | 0, _ => none
  | fuel + 1, n =>
    match s.hit? tie (point - n) with
    | some d => some (d, point - n)
    | none => search tie s point fuel (n + 1)

/-- The shortest decimal of a finite nonzero magnitude. Seventeen digits
always suffice. -/
def shortest (tie : Tie) (mantissa : Nat) (exponent : Int) : Decimal :=
  let s := spanOf mantissa exponent
  match search tie s (pointOf s.value s.den) 17 1 with
  | some (d, e) => ⟨stripZeros 17 d, digitCount d + e⟩
  | none => ⟨0, 0⟩

end Decimal

end EventQuery
