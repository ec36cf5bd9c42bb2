import ValueSyntax.Number.Binary64

namespace ValueSyntax.Binary64

open Number

/-- A quotient of naturals equal to `units` units over `10 ^ grid`. -/
def gridRatio (units : Nat) (grid : Int) : Nat × Nat :=
  if 0 ≤ grid then (units, one * tenTo grid.toNat) else (units * tenTo (-grid).toNat, one)

/-- Whether `digits · 10 ^ grid` reads back as `units` units. -/
def readsBack (units : Nat) (grid : Int) (digits : Nat) : Bool :=
  if 0 ≤ grid then nearestUnits (digits * tenTo grid.toNat * one) 1 = units
  else nearestUnits (digits * one) (tenTo (-grid).toNat) = units

/-- The neighbour on the grid that reads back; of two the nearer, a tie goes up. -/
def gridHit? (units : Nat) (grid : Int) : Option Nat :=
  let (num, den) := gridRatio units grid
  let low := num / den
  match readsBack units grid low, readsBack units grid (low + 1) with
  | true, true => some (if den ≤ 2 * (num % den) then low + 1 else low)
  | true, false => some low
  | false, true => some (low + 1)
  | false, false => none

def leadingExponent (units : Nat) : Int :=
  -- One unit is above 10⁻³²⁴, so 324 places further on every number has a whole part.
  ((Nat.toDigits 10 (units * tenTo 324 / one)).length : Int) - 325

def firstHit (units : Nat) : Nat → Int → Nat × Int
  | 0, grid => ((gridRatio units grid).1 / (gridRatio units grid).2, grid)
  | steps + 1, grid =>
    match gridHit? units grid with
    | some digits => (digits, grid)
    | none => firstHit units steps (grid - 1)

/-- Digits and their exponent, as few as read back. The first grid holds one candidate, the power
of ten above the number; the last one holds every number exactly. -/
def shortest (units : Nat) : Nat × Int :=
  firstHit units (leadingExponent units + 1075).toNat (leadingExponent units + 1)

/-- `digits · 10 ^ exponent` written with a point where one is needed, and no exponent. -/
def positional (digits : List Char) (exponent : Int) : List Char :=
  if 0 ≤ exponent then digits ++ List.replicate exponent.toNat '0'
  else
    let places := (-exponent).toNat
    if places < digits.length then
      digits.take (digits.length - places) ++ '.' :: digits.drop (digits.length - places)
    else '0' :: '.' :: List.replicate (places - digits.length) '0' ++ digits

def magnitudeChars (units : Nat) : List Char :=
  if units = 0 then ['0']
  else positional (Nat.toDigits 10 (shortest units).1) (shortest units).2

def chars : Binary64 → List Char
  | nan => "NaN".toList
  | infinite negative => if negative then "-inf".toList else "inf".toList
  | finite negative units => if negative then '-' :: magnitudeChars units else magnitudeChars units

end ValueSyntax.Binary64
