import ValueSyntax.Number.Power

namespace ValueSyntax

/-- The indices below `n` whose bits are set in a mask, ascending. -/
def maskedIndices (n mask : Nat) : List Nat := (List.range n).filter mask.testBit

/-- Masks have 64 bits: above 63 operands there is nothing to enumerate. -/
def subsetCount (n : Nat) : Nat := if n < 64 then Number.twoTo n - 1 else 0

def firstSubsets (n limit : Nat) : List (List Nat) :=
  (List.range (min limit (subsetCount n))).map fun i => maskedIndices n (i + 1)

def nonEmptySubsets (n : Nat) : List (List Nat) := firstSubsets n (subsetCount n)

theorem firstSubsets_eq_take (n limit : Nat) :
    firstSubsets n limit = (nonEmptySubsets n).take limit := by
  simp [firstSubsets, nonEmptySubsets, ← List.map_take, List.take_range]

theorem length_nonEmptySubsets (n : Nat) : (nonEmptySubsets n).length = subsetCount n := by
  simp [nonEmptySubsets, firstSubsets]

end ValueSyntax
