import ValueSyntax.Number.Power

namespace ValueSyntax

/-- A number of binary64. Finite magnitudes are counted in the smallest one, 2⁻¹⁰⁷⁴. -/
inductive Binary64 where
  | nan
  | infinite (negative : Bool)
  | finite (negative : Bool) (units : Nat)
  deriving DecidableEq, Repr, Inhabited

namespace Binary64

open Number

def one : Nat := twoTo 1074

def overflow : Nat := twoTo 2098

/-- The distance of neighbouring numbers at a magnitude: 53 significant bits are kept. -/
def spacing (units : Nat) : Nat := twoTo (units.log2 - 52)

theorem spacing_pos (units : Nat) : 0 < spacing units := twoTo_pos _

/-- The nearest integer to a quotient; a half goes to the even neighbour. -/
def nearest (num den : Nat) : Nat :=
  if 2 * (num % den) < den ∨ (2 * (num % den) = den ∧ num / den % 2 = 0) then num / den
  else num / den + 1

/-- The representable count of units nearest to `num / den` units. -/
def nearestUnits (num den : Nat) : Nat :=
  nearest num (den * spacing (num / den)) * spacing (num / den)

/-- A count of units that needs no rounding. -/
def Representable (units : Nat) : Prop := spacing units ∣ units

theorem nearest_mul (n : Nat) {den : Nat} (h : 0 < den) : nearest (n * den) den = n := by
  simp [nearest, Nat.mul_div_cancel _ h, h]

theorem nearestUnits_of_representable {units den : Nat} (h : Representable units)
    (hd : 0 < den) : nearestUnits (units * den) den = units := by
  obtain ⟨m, hm⟩ := h
  have hs := spacing_pos units
  unfold nearestUnits
  rw [Nat.mul_div_cancel _ hd]
  have : units * den = m * (den * spacing units) := by
    calc units * den = spacing units * m * den := by rw [← hm]
      _ = m * (den * spacing units) := by ac_rfl
  rw [this, nearest_mul m (Nat.mul_pos hd hs), Nat.mul_comm, ← hm]

/-- The number nearest to `num / den`. -/
def ofRatio (negative : Bool) (num den : Nat) : Binary64 :=
  let units := nearestUnits (num * one) den
  if units < overflow then finite negative units else infinite negative

/-- The number nearest to `coefficient · 10 ^ exponent`. Exponents that leave no doubt are
settled without writing the power out. -/
def ofDecimal (negative : Bool) (coefficient : Nat) (exponent : Int) : Binary64 :=
  if coefficient = 0 then finite negative 0
  else if 310 < exponent then infinite negative
  else if 0 ≤ exponent then ofRatio negative (coefficient * tenTo exponent.toNat) 1
  -- Less than half a unit, for 8 ^ n ≤ 10 ^ n.
  else if coefficient.log2 + 1077 < 3 * (-exponent).toNat then finite negative 0
  else ofRatio negative coefficient (tenTo (-exponent).toNat)

def signed (negative : Bool) (units : Nat) : Int := if negative then -units else units

/-- Strictly below; nothing is below or above what is not a number. -/
def below : Binary64 → Binary64 → Bool
  | finite a m, finite b n => signed a m < signed b n
  | finite _ _, infinite b => !b
  | infinite a, finite _ _ => a
  | infinite a, infinite b => a && !b
  | _, _ => false

/-- Numerically equal: the two zeros are, and what is not a number differs from itself. -/
def same : Binary64 → Binary64 → Bool
  | finite a m, finite b n => signed a m == signed b n
  | infinite a, infinite b => a == b
  | _, _ => false

theorem same_self {x : Binary64} (h : x ≠ nan) : x.same x := by
  cases x <;> simp_all [same]

end Binary64

end ValueSyntax
