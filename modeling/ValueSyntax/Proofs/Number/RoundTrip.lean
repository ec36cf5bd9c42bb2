import Mathlib.Algebra.Group.Nat.Defs
import ValueSyntax.Number.Shortest
import ValueSyntax.Proofs.Number.Canonical
import ValueSyntax.Proofs.Number.Digits
import ValueSyntax.Proofs.Text.Characters
import ValueSyntax.Proofs.Text.Runs

namespace ValueSyntax.Binary64

open Number Text

theorem tenTo_eq (n : Nat) : tenTo n = 5 ^ n * twoTo n := by
  show 10 ^ n = 5 ^ n * 2 ^ n
  rw [← Nat.mul_pow]

theorem tenTo_zero : tenTo 0 = 1 := rfl

theorem one_pos : 0 < one := by
  unfold one
  exact twoTo_pos 1074

theorem readsBack_of_nonneg {units digits : Nat} {grid : Int} (hgrid : 0 ≤ grid) :
    readsBack units grid digits ↔ nearestUnits (digits * tenTo grid.toNat * one) 1 = units := by
  rw [readsBack, if_pos hgrid, decide_eq_true_eq]

theorem readsBack_of_neg {units digits : Nat} {grid : Int} (hgrid : grid < 0) :
    readsBack units grid digits ↔
      nearestUnits (digits * one) (tenTo (-grid).toNat) = units := by
  rw [readsBack, if_neg (by omega), decide_eq_true_eq]

/-- The digits of a hit read back as the number. -/
theorem readsBack_of_gridHit? {units digits : Nat} {grid : Int}
    (h : gridHit? units grid = some digits) : readsBack units grid digits := by
  unfold gridHit? at h
  dsimp only at h
  split at h
  · next hlow hhigh =>
    cases h
    split
    · exact hhigh
    · exact hlow
  · next hlow _ =>
    cases h
    exact hlow
  · next _ hhigh =>
    cases h
    exact hhigh
  · cases h

/-- On the last grid nothing is rounded: a unit is `5 ^ 1074 · 10 ^ -1074`. -/
theorem readsBack_lastGrid {units : Nat} {grid : Int} (h : Representable units)
    (hgrid : grid = -1074) :
    readsBack units grid ((gridRatio units grid).1 / (gridRatio units grid).2) := by
  have hone : one = twoTo (-grid).toNat := by
    rw [hgrid]
    rfl
  have hneg : grid < 0 := by omega
  rw [readsBack_of_neg hneg, gridRatio, if_neg (by omega), tenTo_eq, ← hone, ← Nat.mul_assoc,
    Nat.mul_div_cancel _ one_pos, Nat.mul_assoc]
  exact nearestUnits_of_representable h (Nat.mul_pos (Nat.pow_pos (by decide)) one_pos)

theorem readsBack_firstHit {units : Nat} (h : Representable units) (steps : Nat) (grid : Int)
    (hgrid : grid - steps = -1074) :
    readsBack units (firstHit units steps grid).2 (firstHit units steps grid).1 := by
  -- If no coarser grid reads back, the last one does.
  induction steps generalizing grid with
  | zero =>
    have hlast : grid = -1074 := by omega
    exact readsBack_lastGrid h hlast
  | succ steps ih =>
    unfold firstHit
    split
    · next digits hhit => exact readsBack_of_gridHit? hhit
    · exact ih (grid - 1) (by omega)

theorem readsBack_shortest {units : Nat} (h : Representable units) :
    readsBack units (shortest units).2 (shortest units).1 := by
  have hlead : -324 ≤ leadingExponent units := by
    have := List.length_pos_iff.mpr (Nat.toDigits_ne_nil (n := units * tenTo 324 / one) (b := 10))
    unfold leadingExponent
    omega
  exact readsBack_firstHit h _ _ (by omega)

/-- The short way that reading takes with tiny decimals is no other way. -/
theorem nearestUnits_of_tiny {coefficient places : Nat}
    (h : coefficient.log2 + 1077 < 3 * places) :
    nearestUnits (coefficient * one) (tenTo places) = 0 := by
  -- Less than half of the smallest number is rounded to nothing.
  have hbits : 4 * (coefficient * one) < tenTo places := by
    calc 4 * (coefficient * one) < 4 * (twoTo (coefficient.log2 + 1) * one) := by
          have : coefficient < twoTo (coefficient.log2 + 1) := Nat.lt_log2_self
          have := Nat.mul_lt_mul_of_pos_right this one_pos
          omega
      _ = twoTo (coefficient.log2 + 1077) := by
          show twoTo 2 * (_ * twoTo 1074) = _
          rw [← twoTo_add, ← twoTo_add]
          exact congrArg twoTo (by omega)
      _ ≤ twoTo (3 * places) := Nat.pow_le_pow_right (by decide) (Nat.le_of_lt h)
      _ = 8 ^ places := Nat.pow_mul 2 3 places
      _ ≤ tenTo places := Nat.pow_le_pow_left (by decide) places
  have hdiv : coefficient * one / tenTo places = 0 := Nat.div_eq_of_lt (by omega)
  have hmod : coefficient * one % tenTo places = coefficient * one := Nat.mod_eq_of_lt (by omega)
  have hspacing : spacing 0 = 1 := rfl
  rw [nearestUnits, hdiv, hspacing, Nat.mul_one, Nat.mul_one, nearest, if_pos, hdiv]
  rw [hmod]
  exact Or.inl (by omega)

theorem nearestUnits_zero (den : Nat) : nearestUnits 0 den = 0 := by
  have hspacing : spacing 0 = 1 := rfl
  rw [nearestUnits, Nat.zero_div, hspacing, Nat.mul_one, Nat.mul_one]
  simp only [nearest, Nat.zero_mod, Nat.zero_div]
  grind

theorem ofDecimal_of_nearestUnits (negative : Bool) {units digits places : Nat}
    (hback : nearestUnits (digits * one) (tenTo places) = units) (hpos : 0 < units)
    (hlt : units < overflow) :
    ofDecimal negative digits (-places) = finite negative units := by
  have hdigits : digits ≠ 0 := by
    intro h
    rw [h, Nat.zero_mul, nearestUnits_zero] at hback
    exact Nat.ne_of_lt hpos hback
  -- None of the ways past the rounding is taken.
  have htiny : ¬ digits.log2 + 1077 < 3 * places := by
    intro h
    rw [nearestUnits_of_tiny h] at hback
    exact Nat.ne_of_lt hpos hback
  have hsmall : ¬ (310 : Int) < -places := by omega
  rw [ofDecimal, if_neg hdigits, if_neg hsmall]
  cases places with
  | zero =>
    have hwhole : (-((0 : Nat) : Int)).toNat = 0 := rfl
    rw [if_pos (by decide), hwhole, tenTo_zero, Nat.mul_one]
    exact ofRatio_of_lt hback hlt
  | succ places =>
    have hplaces : (- -((places + 1 : Nat) : Int)).toNat = places + 1 := by omega
    rw [if_neg (by omega), hplaces, if_neg htiny]
    exact ofRatio_of_lt hback hlt

theorem unsigned?_digits (negative : Bool) {whole : List Char} (hne : whole ≠ [])
    (hwhole : ∀ c ∈ whole, c.isDigit) :
    unsigned? negative whole = some (ofDecimal negative (digitsValue whole) 0) := by
  have htake : whole.takeWhile Char.isDigit = whole := by
    rw [List.takeWhile_eq_self_iff]
    exact hwhole
  have hdrop : whole.dropWhile Char.isDigit = [] := by
    rw [List.dropWhile_eq_nil_iff]
    exact hwhole
  simp [unsigned?, unsignedDecimal?, htake, hdrop, hne, after?, exponent?]

theorem unsigned?_point (negative : Bool) {whole fraction : List Char} (hne : whole ≠ [])
    (hwhole : ∀ c ∈ whole, c.isDigit) (hfraction : ∀ c ∈ fraction, c.isDigit) :
    unsigned? negative (whole ++ '.' :: fraction) =
      some (ofDecimal negative (digitsValue (whole ++ fraction)) (-fraction.length)) := by
  have hstop : Stops Char.isDigit ('.' :: fraction) := stops_cons.mpr (by decide)
  have htake := takeWhile_run hwhole hstop
  have hdrop := dropWhile_run hwhole hstop
  have htake' : fraction.takeWhile Char.isDigit = fraction := by
    rw [List.takeWhile_eq_self_iff]
    exact hfraction
  have hdrop' : fraction.dropWhile Char.isDigit = [] := by
    rw [List.dropWhile_eq_nil_iff]
    exact hfraction
  simp [unsigned?, unsignedDecimal?, htake, hdrop, htake', hdrop', hne, after?, exponent?]

theorem isDigit_of_mem_zeros {n : Nat} {c : Char} (h : c ∈ List.replicate n '0') : c.isDigit := by
  rw [List.eq_of_mem_replicate h]
  decide

/-- Zeros behind the digits count as a power of ten. -/
theorem unsigned?_toDigits_append_zeros (negative : Bool) (digits zeros : Nat) :
    unsigned? negative (Nat.toDigits 10 digits ++ List.replicate zeros '0') =
      some (ofDecimal negative (digits * tenTo zeros) 0) := by
  have hne : Nat.toDigits 10 digits ≠ [] := Nat.toDigits_ne_nil
  rw [unsigned?_digits negative (by simp [hne]), digitsValue_append_zeros, digitsValue_toDigits]
  intro c hc
  exact (List.mem_append.mp hc).elim isDigit_of_mem_toDigits isDigit_of_mem_zeros

/-- The point stands among the digits. -/
theorem unsigned?_toDigits_point (negative : Bool) {digits places : Nat}
    (h : places < (Nat.toDigits 10 digits).length) :
    unsigned? negative ((Nat.toDigits 10 digits).take ((Nat.toDigits 10 digits).length - places) ++
        '.' :: (Nat.toDigits 10 digits).drop ((Nat.toDigits 10 digits).length - places)) =
      some (ofDecimal negative digits (-places)) := by
  have hne : (Nat.toDigits 10 digits).take ((Nat.toDigits 10 digits).length - places) ≠ [] := by
    rw [ne_eq, List.take_eq_nil_iff]
    rintro (h | h)
    · omega
    · exact Nat.toDigits_ne_nil h
  rw [unsigned?_point negative hne (fun c hc => isDigit_of_mem_toDigits (List.mem_of_mem_take hc))
    (fun c hc => isDigit_of_mem_toDigits (List.mem_of_mem_drop hc)), List.take_append_drop,
    digitsValue_toDigits, List.length_drop, Nat.sub_sub_self (Nat.le_of_lt h)]

/-- The point and some zeros stand before the digits, and the zeros count for nothing. -/
theorem unsigned?_zeros_point (negative : Bool) {digits places : Nat}
    (h : (Nat.toDigits 10 digits).length ≤ places) :
    unsigned? negative ('0' :: '.' :: (List.replicate (places - (Nat.toDigits 10 digits).length) '0'
        ++ Nat.toDigits 10 digits)) =
      some (ofDecimal negative digits (-places)) := by
  have hvalue : digitsValue (['0'] ++ (List.replicate (places - (Nat.toDigits 10 digits).length)
      '0' ++ Nat.toDigits 10 digits)) = digits := by
    rw [← List.append_assoc]
    exact (digitsValue_zeros_append _ (places - _ + 1)).trans (digitsValue_toDigits digits)
  have hzero : ∀ c ∈ ['0'], c.isDigit := fun c => @isDigit_of_mem_zeros 1 c
  refine (unsigned?_point negative (List.cons_ne_nil _ _) hzero ?_).trans ?_
  · intro c hc
    exact (List.mem_append.mp hc).elim isDigit_of_mem_zeros isDigit_of_mem_toDigits
  · rw [hvalue, List.length_append, List.length_replicate, Nat.sub_add_cancel h]

theorem unsigned?_positional (negative : Bool) {units digits : Nat} {grid : Int}
    (hback : readsBack units grid digits) (hpos : 0 < units) (hlt : units < overflow) :
    unsigned? negative (positional (Nat.toDigits 10 digits) grid) =
      some (finite negative units) := by
  by_cases hgrid : 0 ≤ grid
  · rw [readsBack_of_nonneg hgrid, ← tenTo_zero] at hback
    rw [positional, if_pos hgrid, unsigned?_toDigits_append_zeros]
    have hread := ofDecimal_of_nearestUnits negative hback hpos hlt
    exact congrArg some hread
  · rw [readsBack_of_neg (by omega)] at hback
    rw [positional, if_neg hgrid]
    generalize (-grid).toNat = places at hback
    have hread := ofDecimal_of_nearestUnits negative hback hpos hlt
    dsimp only
    split
    · next hplaces => rw [unsigned?_toDigits_point negative hplaces, hread]
    · next hplaces =>
      rw [List.cons_append, List.cons_append,
        unsigned?_zeros_point negative (Nat.le_of_not_lt hplaces), hread]

theorem unsigned?_magnitudeChars (negative : Bool) {units : Nat} (h : Representable units)
    (hlt : units < overflow) :
    unsigned? negative (magnitudeChars units) = some (finite negative units) := by
  unfold magnitudeChars
  by_cases h0 : units = 0
  · rw [if_pos h0, h0]
    rfl
  · rw [if_neg h0]
    exact unsigned?_positional negative (readsBack_shortest h) (Nat.pos_of_ne_zero h0) hlt

theorem isWordChar_of_isDigit {c : Char} (h : c.isDigit) : isWordChar c := by
  simp [isWordChar, Char.isAlphanum, h]

theorem isWordChar_of_mem_positional {digits : List Char} {grid : Int} {c : Char}
    (hdigits : ∀ d ∈ digits, d.isDigit) (h : c ∈ positional digits grid) : isWordChar c := by
  have hzeros : ∀ n, c ∈ List.replicate n '0' → isWordChar c := by
    intro n hc
    rw [List.eq_of_mem_replicate hc]
    decide
  have hall : c ∈ digits → isWordChar c := fun hc => isWordChar_of_isDigit (hdigits c hc)
  unfold positional at h
  dsimp only at h
  split at h
  · exact (List.mem_append.mp h).elim hall (hzeros _)
  · split at h
    · rcases List.mem_append.mp h with h | h
      · exact hall (List.mem_of_mem_take h)
      · rcases List.mem_cons.mp h with rfl | h
        · decide
        · exact hall (List.mem_of_mem_drop h)
    · rcases List.mem_append.mp h with h | h
      · rcases List.mem_cons.mp h with rfl | h
        · decide
        · rcases List.mem_cons.mp h with rfl | h
          · decide
          · exact hzeros _ h
      · exact hall h

theorem isWordChar_of_mem_magnitudeChars {units : Nat} {c : Char} (h : c ∈ magnitudeChars units) :
    isWordChar c := by
  unfold magnitudeChars at h
  split at h
  · rw [List.mem_singleton.mp h]
    decide
  · exact isWordChar_of_mem_positional (fun d hd => isDigit_of_mem_toDigits hd) h

theorem isWordChar_of_mem_chars {x : Binary64} {c : Char} (h : c ∈ x.chars) : isWordChar c := by
  match x with
  | nan => exact List.all_eq_true.mp (by decide : nan.chars.all isWordChar) c h
  | infinite true =>
    exact List.all_eq_true.mp (by decide : (infinite true).chars.all isWordChar) c h
  | infinite false =>
    exact List.all_eq_true.mp (by decide : (infinite false).chars.all isWordChar) c h
  | finite true units =>
    rw [chars, if_pos rfl] at h
    rcases List.mem_cons.mp h with rfl | h
    · decide
    · exact isWordChar_of_mem_magnitudeChars h
  | finite false units =>
    rw [chars, if_neg (by decide)] at h
    exact isWordChar_of_mem_magnitudeChars h

theorem exists_magnitudeChars_cons (units : Nat) :
    ∃ c cs, magnitudeChars units = c :: cs ∧ c.isDigit := by
  unfold magnitudeChars
  split
  · exact ⟨'0', [], rfl, rfl⟩
  · obtain ⟨c, cs, hcs, hc⟩ := exists_toDigits_cons (shortest units).1
    unfold positional
    dsimp only
    split
    · exact ⟨c, _, by rw [hcs, List.cons_append], hc⟩
    · split
      · next hplaces =>
        rw [hcs] at hplaces ⊢
        have hpos : (c :: cs).length - (-(shortest units).2).toNat ≠ 0 := by omega
        obtain ⟨n, hn⟩ := Nat.exists_eq_succ_of_ne_zero hpos
        exact ⟨c, _, by rw [hn, List.take_succ_cons, List.cons_append], hc⟩
      · exact ⟨'0', _, rfl, rfl⟩

theorem splitSign_magnitudeChars (units : Nat) :
    splitSign (magnitudeChars units) = (false, magnitudeChars units) := by
  obtain ⟨c, cs, hcs, hc⟩ := exists_magnitudeChars_cons units
  have hsigns : c ≠ '-' ∧ c ≠ '+' := by
    constructor <;> rintro rfl <;> exact absurd hc (by decide)
  simp [hcs, splitSign, after?, hsigns]

/-- A number is read back from its text as it was, with the sign of a zero. -/
theorem read?_chars {x : Binary64} (h : x.Canonical) : read? x.chars = some x := by
  cases h with
  | nan => decide
  | infinite negative => cases negative <;> decide
  | finite negative h hlt =>
    cases negative with
    | true =>
      have hsign (cs : List Char) : splitSign ('-' :: cs) = (true, cs) := rfl
      rw [read?, chars, if_pos rfl, hsign]
      exact unsigned?_magnitudeChars true h hlt
    | false =>
      rw [read?, chars, if_neg (by decide), splitSign_magnitudeChars]
      exact unsigned?_magnitudeChars false h hlt

end ValueSyntax.Binary64
