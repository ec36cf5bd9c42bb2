import ValueSyntax.Number.Binary64
import ValueSyntax.Number.Digits

namespace ValueSyntax.Json

open Number

/-- A number as it is written. The sign says nothing about its size and is left out. -/
structure Numeral where
  whole : List Char
  fraction : List Char
  exponentNegative : Bool
  exponent : List Char
  deriving DecidableEq, Repr

namespace Numeral

/-- A significand of 64 bits with one more digit, if it fits. -/
def extend? (significand : Nat) (c : Char) : Option Nat :=
  let n := 10 * significand + digitValue c
  if n < twoTo 64 then some n else none

/-- A significand, the power of ten it is scaled by, and whether a digit had to be dropped. -/
structure Scaled where
  significand : Nat
  exponent : Int
  full : Bool

/-- Digits before the point that no longer fit still count as places. -/
def Scaled.addWhole (s : Scaled) (c : Char) : Scaled :=
  match s.full, extend? s.significand c with
  | false, some n => { s with significand := n }
  | _, _ => { s with exponent := s.exponent + 1, full := true }

/-- Digits behind the point that no longer fit are dropped. -/
def Scaled.addFraction (s : Scaled) (c : Char) : Scaled :=
  match s.full, extend? s.significand c with
  | false, some n => { s with significand := n, exponent := s.exponent - 1 }
  | _, _ => { s with full := true }

def scaled (n : Numeral) : Scaled :=
  let whole := n.whole.foldl Scaled.addWhole ⟨0, 0, false⟩
  n.fraction.foldl Scaled.addFraction { whole with full := false }

/-- Whether a significand scaled by a power of ten stays finite, both rounded to binary64 before
they are multiplied. -/
def staysFinite (significand : Nat) (exponent : Int) : Bool :=
  if exponent < 0 then true
  else if 308 < exponent then significand = 0
  else
    let s := Binary64.nearestUnits (significand * Binary64.one) 1
    let p := Binary64.nearestUnits (tenTo exponent.toNat * Binary64.one) 1
    Binary64.nearestUnits (s * p) Binary64.one < Binary64.overflow

/-- Whether the number can be read. An exponent that does not fit 32 bits is too large unless it
is negative or has nothing to scale. -/
def fits (n : Numeral) : Bool :=
  let s := n.scaled
  let e := digitsValue n.exponent
  if e < twoTo 31 then
    staysFinite s.significand (if n.exponentNegative then s.exponent - e else s.exponent + e)
  else n.exponentNegative || s.significand = 0

end Numeral

end ValueSyntax.Json
