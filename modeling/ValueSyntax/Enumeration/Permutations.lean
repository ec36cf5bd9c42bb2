namespace ValueSyntax

variable {β : Type} {n : Nat}

/-- Visits the arrangements of the first `k` places. Each place in turn is filled by swaps with
the places before it: always the first one if its index is even, else one after the other. -/
def visitArrangements (visit : β → Vector Nat n → β) :
    (k : Nat) → k ≤ n → Vector Nat n × β → Vector Nat n × β
  | 0, _, (v, b) => (v, visit b v)
  | k + 1, h, s =>
    k.fold
      (fun c hc (v, b) =>
        let other := if k % 2 = 0 then 0 else c
        have : other < n := by grind
        visitArrangements visit k (Nat.le_of_lt h) (v.swap other k, b))
      (visitArrangements visit k (Nat.le_of_lt h) s)

/-- Folds over the permutations of the indices below `n` without holding them all. -/
def foldPermutations (n : Nat) (visit : β → Vector Nat n → β) (b : β) : β :=
  (visitArrangements visit n (Nat.le_refl n) (.ofFn fun i => i.val, b)).2

/-- Every permutation of the indices below `n`, the identity first. -/
def permutations (n : Nat) : List (List Nat) :=
  (foldPermutations n (fun l v => v.toList :: l) []).reverse

end ValueSyntax
