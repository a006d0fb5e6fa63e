import EventQuery.Decimal.Shortest

/-!
# Decimal text

How binary floating-point numbers are written: the plain layout of
clauses and parameter listings, the layout of JSON numbers, and fixed
places for durations.
-/

namespace EventQuery

namespace Decimal

def digitText (n : Nat) : List Char := Nat.toDigits 10 n

def zeros (n : Nat) : List Char := List.replicate n '0'

/-- The digits of a decimal with its point, without an exponent. -/
def positional (d : Decimal) : List Char :=
  let ds := digitText d.digits
  let n := ds.length
  if d.point ≤ 0 then
    ['0', '.'] ++ zeros (-d.point).toNat ++ ds
  else if d.point.toNat < n then
    ds.take d.point.toNat ++ ['.'] ++ ds.drop d.point.toNat
  else
    ds ++ zeros (d.point.toNat - n)

/-- The digits of a decimal as `d.ddd`, then `e`, a sign and the exponent. -/
def scientific (d : Decimal) : List Char :=
  let fraction := (digitText d.digits).drop 1
  let exponent := d.point - 1
  (digitText d.digits).take 1
    ++ (if fraction.isEmpty then [] else '.' :: fraction)
    ++ ['e', if exponent < 0 then '-' else '+']
    ++ digitText exponent.natAbs

end Decimal

namespace Binary64

def signText (negative : Bool) : List Char :=
  if negative then ['-'] else []

/-- The plain layout: shortest digits, never an exponent, no fraction on
whole numbers. A half between two shortest decimals goes up. -/
def plain : Binary64 → String
  | nan => "NaN"
  | infinity negative => String.ofList (signText negative ++ ['i', 'n', 'f'])
  | finite negative m e =>
    String.ofList <| signText negative ++
      if m = 0 then ['0'] else (Decimal.shortest .up m e).positional

/-- The layout of JSON numbers: shortest digits, at least one place after
the point, an exponent below `10 ^ -5` and from `10 ^ 16` on. A half goes
to the even digit. What is not finite has no text. -/
def json? : Binary64 → Option String
  | nan => none
  | infinity _ => none
  | finite negative m e =>
    some <| String.ofList <| signText negative ++
      if m = 0 then ['0', '.', '0']
      else
        let d := Decimal.shortest .toEven m e
        if d.point < -4 ∨ 16 < d.point then d.scientific
        else if (Decimal.digitCount d.digits : Int) ≤ d.point then d.positional ++ ['.', '0']
        else d.positional

/-- Two places after the point; the exact value is rounded, and a half
goes to the even neighbour. -/
def fixed2 : Binary64 → String
  | nan => "NaN"
  | infinity negative => String.ofList (signText negative ++ ['i', 'n', 'f'])
  | finite negative m e =>
    let (num, den) := toRatio m e
    let hundredths := roundDiv .toEven (100 * num) den
    String.ofList <| signText negative
      ++ Decimal.digitText (hundredths / 100) ++ ['.']
      ++ Decimal.digitText (hundredths / 10 % 10) ++ Decimal.digitText (hundredths % 10)

end Binary64

end EventQuery
