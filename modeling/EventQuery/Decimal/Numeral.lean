import EventQuery.Decimal.Binary64
import EventQuery.Decimal.Digits

/-!
# Numerals

Reading numbers: signed 64-bit integers, and decimals with fraction and
exponent as the nearest binary floating-point number.
-/

namespace EventQuery

namespace Numeral

/-- A sign at the front of a numeral; is it a minus? -/
def splitSign : List Char → Bool × List Char
  | '-' :: s => (true, s)
  | '+' :: s => (false, s)
  | s => (false, s)

/-! ## Integers -/

/-- A signed integer of 64 bits. -/
def int64? (s : List Char) : Option Int :=
  let (negative, digits) := splitSign s
  if Digits.isRun digits then
    let magnitude := Digits.value digits
    if negative then
      if magnitude ≤ Nat.pow 2 63 then some (-(magnitude : Int)) else none
    else
      if magnitude < Nat.pow 2 63 then some (magnitude : Int) else none
  else
    none

/-! ## Decimals -/

/-- A decimal in parts: `± whole.fraction · 10 ^ exponent`. -/
structure Parts where
  negative : Bool
  whole : List Char
  fraction : List Char
  exponent : Int
  deriving DecidableEq, Repr

def exponentValue? (s : List Char) : Option Int :=
  let (negative, digits) := splitSign s
  if Digits.isRun digits then
    some (if negative then -(Digits.value digits : Int) else (Digits.value digits : Int))
  else
    none

/-- The exponent after the mantissa: none at the end of the numeral. -/
def exponentPart? : List Char → Option Int
  | [] => some 0
  | c :: s => if c = 'e' || c = 'E' then exponentValue? s else none

/-- The fraction after the whole part, and the rest. -/
def splitFraction : List Char → List Char × List Char
  | '.' :: s => (s.takeWhile Char.isDigit, s.dropWhile Char.isDigit)
  | s => ([], s)

/-- Read a decimal. At least one digit must stand before or after the
point. -/
def parts? (s : List Char) : Option Parts :=
  let (negative, body) := splitSign s
  let whole := body.takeWhile Char.isDigit
  let (fraction, rest) := splitFraction (body.dropWhile Char.isDigit)
  if whole.isEmpty && fraction.isEmpty then none
  else (exponentPart? rest).map (⟨negative, whole, fraction, ·⟩)

/-- The binary number nearest to a decimal. Far outside the range of
binary numbers the answer is known without computing the power of ten. -/
def Parts.nearest (p : Parts) : Binary64 :=
  let digits := (p.whole ++ p.fraction).dropWhile (· == '0')
  let scale := p.exponent - p.fraction.length
  let magnitude := scale + digits.length
  if digits.isEmpty then .zero p.negative
  else if 400 < magnitude then .infinity p.negative
  else if magnitude < -400 then .zero p.negative
  else if 0 ≤ scale then
    .nearest p.negative (Digits.value digits * Nat.pow 10 scale.toNat) 1
  else
    .nearest p.negative (Digits.value digits) (Nat.pow 10 (-scale).toNat)

/-- A word for a number that is no decimal, in any case. -/
def special? (s : List Char) : Option Binary64 :=
  let (negative, word) := splitSign s
  let word := String.ofList (word.map Char.toLower)
  if word = "nan" then some .nan
  else if word = "inf" ∨ word = "infinity" then some (.infinity negative)
  else none

/-- A floating-point number from text. -/
def binary64? (s : List Char) : Option Binary64 :=
  match parts? s with
  | some p => some p.nearest
  | none => special? s

end Numeral

end EventQuery
