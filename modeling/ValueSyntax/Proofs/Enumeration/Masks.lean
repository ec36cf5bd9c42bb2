import Mathlib.Data.Nat.BitIndices
import Mathlib.Data.Nat.Bitwise
import ValueSyntax.Proofs.Shapes.Combine

namespace ValueSyntax

section Bits

variable {n mask : Nat} {l : List Nat}

theorem sortedLT_maskedIndices : (maskedIndices n mask).SortedLT :=
  (List.pairwise_lt_range.filter _).sortedLT

theorem maskedIndices_eq_bitIndices (h : mask < 2 ^ n) :
    maskedIndices n mask = mask.bitIndices := by
  refine sortedLT_maskedIndices.eq_of_mem_iff Nat.bitIndices_sorted fun i => ?_
  rw [maskedIndices, List.mem_filter, List.mem_range, Nat.mem_bitIndices, and_iff_right_iff_imp]
  intro hbit
  by_contra hi
  have hle : 2 ^ n ≤ 2 ^ i := Nat.pow_le_pow_right (by decide) (Nat.not_lt.mp hi)
  rw [Nat.testBit_lt_two_pow (h.trans_le hle)] at hbit
  cases hbit

/-- The mask with a bit for each index. -/
def maskOf (l : List Nat) : Nat := (l.map (2 ^ ·)).sum

theorem maskOf_maskedIndices (h : mask < 2 ^ n) : maskOf (maskedIndices n mask) = mask := by
  rw [maskedIndices_eq_bitIndices h]
  exact Nat.sum_map_two_pow_bitIndices mask

theorem maskOf_lt (hl : l.SortedLT) (hlt : ∀ i ∈ l, i < n) : maskOf l < 2 ^ n := by
  refine Nat.lt_pow_two_of_testBit _ fun i hi => ?_
  rw [← Bool.not_eq_true, ← Nat.mem_bitIndices, maskOf, Nat.bitIndices_sum_map_two_pow hl]
  exact fun hmem => Nat.not_lt.mpr hi (hlt i hmem)

theorem maskedIndices_maskOf (hl : l.SortedLT) (hlt : ∀ i ∈ l, i < n) :
    maskedIndices n (maskOf l) = l := by
  rw [maskedIndices_eq_bitIndices (maskOf_lt hl hlt)]
  exact Nat.bitIndices_sum_map_two_pow hl

theorem maskOf_pos (h : l ≠ []) : 0 < maskOf l := by
  cases l with
  | nil => exact absurd rfl h
  | cons i l => exact Nat.add_pos_left (Nat.two_pow_pos i) _

end Bits

section Subsets

variable {n : Nat}

theorem subsetCount_of_lt (h : n < 64) : subsetCount n = 2 ^ n - 1 := if_pos h

theorem nonEmptySubsets_eq_map :
    nonEmptySubsets n = (List.range' 1 (subsetCount n)).map (maskedIndices n) := by
  rw [nonEmptySubsets, firstSubsets, Nat.min_self, List.range'_eq_map_range, List.map_map]
  exact List.map_congr_left fun i _ => congrArg _ (Nat.add_comm i 1)

/-- The lists stand in the order of their masks, which have no gap. -/
theorem map_maskOf_nonEmptySubsets (h : n < 64) :
    (nonEmptySubsets n).map maskOf = List.range' 1 (2 ^ n - 1) := by
  rw [nonEmptySubsets_eq_map, subsetCount_of_lt h, List.map_map]
  refine (List.map_congr_left fun mask hmask => ?_).trans (List.map_id _)
  rw [List.mem_range'_1] at hmask
  exact maskOf_maskedIndices (by omega)

theorem nodup_nonEmptySubsets (h : n < 64) : (nonEmptySubsets n).Nodup := by
  apply List.Nodup.of_map maskOf
  rw [map_maskOf_nonEmptySubsets h]
  exact List.nodup_range'

/-- Every non-empty set of indices below `n` is enumerated, as an ascending list, and nothing
else. -/
theorem mem_nonEmptySubsets_iff (h : n < 64) {l : List Nat} :
    l ∈ nonEmptySubsets n ↔ l ≠ [] ∧ l.SortedLT ∧ ∀ i ∈ l, i < n := by
  constructor
  · intro hl
    refine ⟨?_, ?_, lt_of_mem_nonEmptySubsets hl⟩
    · rintro rfl
      have hmask : maskOf [] ∈ List.range' 1 (2 ^ n - 1) :=
        map_maskOf_nonEmptySubsets h ▸ List.mem_map_of_mem hl
      rw [List.mem_range'_1] at hmask
      exact Nat.not_succ_le_zero 0 hmask.1
    · obtain ⟨i, -, rfl⟩ := mem_nonEmptySubsets.mp hl
      exact sortedLT_maskedIndices
  · rintro ⟨hne, hsorted, hlt⟩
    rw [← maskedIndices_maskOf hsorted hlt]
    exact maskedIndices_mem h (maskOf_pos hne) (maskOf_lt hsorted hlt)

end Subsets

def bitAt? (i : Nat) : Option UInt64 := if i < 64 then some (1 <<< i.toUInt64) else none

/-- The mask where the counting stops. A number of indices that 32 bits cannot hold, or that is not
the place of a bit, stops it before it begins. -/
def stopMask (n : Nat) : UInt64 := (if n < 2 ^ 32 then bitAt? n else none).getD 0

theorem toNat_add_one {mask stop : UInt64} (h : mask < stop) :
    (mask + 1).toNat = mask.toNat + 1 := by
  have hlt := UInt64.lt_iff_toNat_lt.mp h
  have hroom := stop.toNat_lt
  rw [UInt64.toNat_add, UInt64.toNat_one, Nat.mod_eq_of_lt (by omega)]

def wordsUpTo (stop mask : UInt64) : List UInt64 :=
  if mask < stop then mask :: wordsUpTo stop (mask + 1) else []
termination_by stop.toNat - mask.toNat
decreasing_by
  have hlt := UInt64.lt_iff_toNat_lt.mp ‹mask < stop›
  rw [toNat_add_one ‹mask < stop›]
  omega

/-- Whether a bit of a word is set. Asking for one that words do not have comes to nothing. -/
def isSet? (mask : UInt64) (i : Nat) : Option Bool := (bitAt? i).map fun bit => mask &&& bit ≠ 0

/-- The indices whose bits are set in a word. -/
def selected? (n : Nat) (mask : UInt64) : Option (List Nat) :=
  (List.range n).filterMapM fun i => do return if ← isSet? mask i then some i else none

def wordSubsets? (n : Nat) : Option (List (List Nat)) :=
  (wordsUpTo (stopMask n) 1).mapM (selected? n)

section Words

variable {n i : Nat} {stop mask : UInt64}

theorem bitAt?_of_lt (h : i < 64) : bitAt? i = some (1 <<< i.toUInt64) := if_pos h

theorem toNat_one_shiftLeft (h : i < 64) : ((1 : UInt64) <<< i.toUInt64).toNat = 2 ^ i := by
  have hi : i.toUInt64.toNat % 64 = i := by
    rw [Nat.toUInt64_eq, UInt64.toNat_ofNat']
    omega
  have hroom : 2 ^ i < 2 ^ 64 := Nat.pow_lt_pow_right (by decide) h
  rw [UInt64.toNat_shiftLeft, hi, UInt64.toNat_one, Nat.one_shiftLeft, Nat.mod_eq_of_lt hroom]

theorem isSet?_of_lt (h : i < 64) : isSet? mask i = some (mask.toNat.testBit i) := by
  have hbit : mask &&& 1 <<< i.toUInt64 ≠ 0 ↔ mask.toNat.testBit i := by
    rw [ne_eq, ← UInt64.toNat_inj, UInt64.toNat_and, toNat_one_shiftLeft h, Nat.and_two_pow]
    cases mask.toNat.testBit i <;> simp
  rw [isSet?, bitAt?_of_lt h, Option.map_some]
  exact congrArg some (Bool.eq_iff_iff.mpr (decide_eq_true_iff.trans hbit))

theorem toNat_stopMask (h : n < 64) : (stopMask n).toNat = 2 ^ n := by
  rw [stopMask, if_pos (h.trans (by decide)), bitAt?_of_lt h]
  exact toNat_one_shiftLeft h

theorem stopMask_eq_zero (h : 64 ≤ n) : stopMask n = 0 := by
  rw [stopMask, bitAt?, if_neg (Nat.not_lt.mpr h), ite_self]
  rfl

theorem map_toNat_wordsUpTo :
    (wordsUpTo stop mask).map UInt64.toNat =
      List.range' mask.toNat (stop.toNat - mask.toNat) := by
  fun_induction wordsUpTo stop mask with
  | case1 mask hlt ih =>
    have hle := UInt64.lt_iff_toNat_lt.mp hlt
    have hcount : stop.toNat - mask.toNat = stop.toNat - (mask.toNat + 1) + 1 := by omega
    rw [List.map_cons, ih, toNat_add_one hlt, hcount, List.range'_succ]
  | case2 mask hle =>
    rw [UInt64.not_lt, UInt64.le_iff_toNat_le] at hle
    rw [Nat.sub_eq_zero_of_le hle]
    rfl

theorem filterMapM_isSet? {l : List Nat} (h : ∀ i ∈ l, i < 64) :
    (l.filterMapM fun i => do return if ← isSet? mask i then some i else none) =
      some (l.filter mask.toNat.testBit) := by
  induction l with
  | nil => rfl
  | cons i l ih =>
    obtain ⟨hi, hl⟩ := List.forall_mem_cons.mp h
    rw [List.filterMapM_cons, ih hl, isSet?_of_lt hi, List.filter_cons]
    cases mask.toNat.testBit i <;> rfl

theorem selected?_eq (h : n ≤ 64) : selected? n mask = some (maskedIndices n mask.toNat) :=
  filterMapM_isSet? fun _ hi => (List.mem_range.mp hi).trans_le h

/-- Words give the same subsets, and every bit that is asked for is one that they have. -/
theorem wordSubsets?_eq (n : Nat) : wordSubsets? n = some (nonEmptySubsets n) := by
  rw [nonEmptySubsets_eq_map, wordSubsets?]
  by_cases h : n < 64
  · have hselected : selected? n = fun mask => pure (maskedIndices n mask.toNat) :=
      funext fun mask => selected?_eq h.le
    have hwords : (wordsUpTo (stopMask n) 1).map UInt64.toNat = List.range' 1 (subsetCount n) := by
      rw [map_toNat_wordsUpTo, toNat_stopMask h, UInt64.toNat_one, subsetCount_of_lt h]
    rw [hselected, List.mapM_pure, ← hwords, List.map_map]
    rfl
  · rw [stopMask_eq_zero (Nat.not_lt.mp h), wordsUpTo, if_neg (by decide), subsetCount, if_neg h]
    rfl

end Words

/-- The non-empty subsets of the indices below `n`, counted in words of 64 bits. Up to 63 indices
each of them comes up once, as an ascending list, and in the order of the masks, which are all
numbers from one up to `2 ^ n - 1`; of more indices there are none. In both cases words are shifted
by less than 64 bits only. -/
theorem subsets_in_order_of_masks (n : Nat) :
    wordSubsets? n = some (nonEmptySubsets n) ∧
    (n < 64 →
      (nonEmptySubsets n).length = 2 ^ n - 1 ∧
      (nonEmptySubsets n).Nodup ∧
      (∀ l, l ∈ nonEmptySubsets n ↔ l ≠ [] ∧ l.SortedLT ∧ ∀ i ∈ l, i < n) ∧
      (nonEmptySubsets n).map maskOf = List.range' 1 (2 ^ n - 1)) ∧
    (64 ≤ n → nonEmptySubsets n = []) := by
  refine ⟨wordSubsets?_eq n, fun h => ⟨?_, nodup_nonEmptySubsets h, fun l =>
    mem_nonEmptySubsets_iff h, map_maskOf_nonEmptySubsets h⟩, fun h => ?_⟩
  · rw [length_nonEmptySubsets, subsetCount_of_lt h]
  · rw [nonEmptySubsets_eq_map, subsetCount, if_neg (Nat.not_lt.mpr h)]
    rfl

/-- The most indices that are enumerated, and the fewest that are too many. -/
theorem subsets_in_order_of_masks_at_limit :
    (∃ l, wordSubsets? 63 = some l ∧ l.length = 2 ^ 63 - 1 ∧ l.Nodup) ∧
      wordSubsets? 64 = some [] := by
  obtain ⟨hlast, hlaws, -⟩ := subsets_in_order_of_masks 63
  obtain ⟨hlength, hnodup, -⟩ := hlaws (by decide)
  obtain ⟨hfirst, -, hnone⟩ := subsets_in_order_of_masks 64
  exact ⟨⟨_, hlast, hlength, hnodup⟩, hfirst.trans (congrArg some (hnone (Nat.le_refl 64)))⟩

end ValueSyntax
