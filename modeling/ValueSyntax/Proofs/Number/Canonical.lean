import ValueSyntax.Number.Reading

namespace ValueSyntax.Binary64

open Number Text

inductive Canonical : Binary64 → Prop
  | nan : Canonical nan
  | infinite (negative : Bool) : Canonical (infinite negative)
  | finite (negative : Bool) {units : Nat} (h : Representable units) (hlt : units < overflow) :
      Canonical (finite negative units)

theorem log2_twoTo (n : Nat) : (twoTo n).log2 = n := Nat.log2_two_pow

theorem twoTo_dvd_twoTo {m n : Nat} (h : m ≤ n) : twoTo m ∣ twoTo n := Nat.pow_dvd_pow 2 h

theorem twoTo_add (m n : Nat) : twoTo (m + n) = twoTo m * twoTo n := Nat.pow_add 2 m n

/-- The last count of 53 bits may be rounded up to `2 ^ 53`, which is representable, too. -/
theorem representable_mul_twoTo {m : Nat} (hm : m ≤ twoTo 53) (e : Nat) :
    Representable (m * twoTo e) := by
  rcases Nat.eq_zero_or_pos m with rfl | hpos
  · rw [Nat.zero_mul]
    exact Nat.dvd_zero _
  · rcases Nat.lt_or_eq_of_le hm with hlt | rfl
    · have hne : m * twoTo e ≠ 0 := Nat.mul_ne_zero (Nat.ne_of_gt hpos) (Nat.ne_of_gt (twoTo_pos e))
      have hlog : (m * twoTo e).log2 < 53 + e := by
        rw [Nat.log2_lt hne]
        show m * twoTo e < twoTo (53 + e)
        rw [twoTo_add]
        exact Nat.mul_lt_mul_of_pos_right hlt (twoTo_pos e)
      exact Nat.dvd_mul_left_of_dvd (twoTo_dvd_twoTo (by omega)) m
    · show twoTo _ ∣ _
      rw [← twoTo_add, log2_twoTo]
      exact twoTo_dvd_twoTo (by omega)

theorem nearest_le (num den : Nat) : nearest num den ≤ num / den + 1 := by
  unfold nearest
  split
  · exact Nat.le_succ _
  · exact Nat.le_refl _

/-- At most 53 bits of a magnitude lie above the distance of its neighbours. -/
theorem div_spacing_lt (units : Nat) : units / spacing units < twoTo 53 := by
  rw [Nat.div_lt_iff_lt_mul (spacing_pos units)]
  show units < twoTo 53 * twoTo _
  rw [← twoTo_add]
  calc units < twoTo (units.log2 + 1) := Nat.lt_log2_self
    _ ≤ _ := Nat.pow_le_pow_right (by decide) (by omega)

theorem representable_nearestUnits (num den : Nat) : Representable (nearestUnits num den) := by
  refine representable_mul_twoTo ?_ _
  have hle := nearest_le num (den * spacing (num / den))
  have hlt := div_spacing_lt (num / den)
  rw [Nat.div_div_eq_div_mul] at hlt
  exact Nat.le_trans hle hlt

theorem ofRatio_of_lt {negative : Bool} {num den units : Nat}
    (h : nearestUnits (num * one) den = units) (hlt : units < overflow) :
    ofRatio negative num den = finite negative units := by
  simp only [ofRatio, h, hlt, if_true]

theorem canonical_ofRatio (negative : Bool) (num den : Nat) :
    (ofRatio negative num den).Canonical := by
  by_cases h : nearestUnits (num * one) den < overflow
  · rw [ofRatio_of_lt rfl h]
    exact .finite negative (representable_nearestUnits _ _) h
  · simp only [ofRatio, h, if_false]
    exact .infinite negative

theorem canonical_zero (negative : Bool) : (finite negative 0).Canonical :=
  .finite negative (Nat.dvd_zero _) (by unfold overflow; exact twoTo_pos 2098)

theorem canonical_ofDecimal (negative : Bool) (coefficient : Nat) (exponent : Int) :
    (ofDecimal negative coefficient exponent).Canonical := by
  unfold ofDecimal
  split
  · exact canonical_zero negative
  split
  · exact .infinite negative
  split
  · exact canonical_ofRatio _ _ _
  split
  · exact canonical_zero negative
  · exact canonical_ofRatio _ _ _

theorem canonical_of_unsignedDecimal? {negative : Bool} {cs : List Char} {x : Binary64}
    (h : unsignedDecimal? negative cs = some x) : x.Canonical := by
  unfold unsignedDecimal? at h
  extract_lets whole at h
  split at h
  next fraction marked _ =>
  by_cases hempty : whole = [] ∧ fraction = []
  · rw [if_pos hempty] at h
    cases h
  · rw [if_neg hempty] at h
    obtain ⟨exponent, _, rfl⟩ := Option.map_eq_some_iff.mp h
    exact canonical_ofDecimal _ _ _

theorem canonical_of_read? {cs : List Char} {x : Binary64} (h : read? cs = some x) :
    x.Canonical := by
  unfold read? unsigned? at h
  split at h
  · next hx =>
    cases h
    exact canonical_of_unsignedDecimal? hx
  · dsimp only at h
    split at h
    · cases h
      exact .infinite _
    · split at h
      · cases h
        exact .nan
      · cases h

end ValueSyntax.Binary64
