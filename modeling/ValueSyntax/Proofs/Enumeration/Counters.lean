import ValueSyntax.Proofs.Enumeration.Rounds

namespace ValueSyntax

open Equiv

def swap? {n : Nat} (v : Vector Nat n) (i j : Nat) : Option (Vector Nat n) :=
  if h : i < n ∧ j < n then some (v.swap i j h.1 h.2) else none

/-- The arrangement at hand, the rounds that each place is in, the place at hand, and the
arrangements found so far. -/
structure Counting (n : Nat) where
  arrangement : Vector Nat n
  counters : Vector Nat n
  place : Nat
  found : List (List Nat)

namespace Counting

variable {n : Nat}

/-- Begins the next round of a place, or takes a place whose rounds are over back to the first one
and goes on to the next place. Nothing comes of a loop without end or of a swap out of bounds. -/
def run (s : Counting n) : Option (List (List Nat)) :=
  if h : s.place < n then
    let c := s.counters[s.place]
    if c < s.place then do
      let arrangement ← swap? s.arrangement (if s.place % 2 = 0 then 0 else c) s.place
      Counting.mk arrangement (s.counters.set s.place (c + 1)) 0 (s.found ++ [arrangement.toList])
        |>.run
    else { s with counters := s.counters.set s.place 0, place := s.place + 1 } |>.run
  else some s.found
partial_fixpoint

def start (n : Nat) : Counting n :=
  ⟨.ofFn fun i => i.val, .replicate n 0, 0, [List.range n]⟩

section Steps

variable {v : Vector Nat n} {counters : Vector Nat n} {k : Nat} {found : List (List Nat)}

theorem run_of_lt (h : k < n) (hlt : counters[k] < k) (σ : Perm Nat) :
    run ⟨arranged n σ, counters, k, found⟩ =
      run ⟨arranged n (σ * swap (partner k counters[k]) k), counters.set k (counters[k] + 1), 0,
        found ++ [(List.range n).map (σ * swap (partner k counters[k]) k)]⟩ := by
  have hpartner := (partner_lt hlt).trans h
  rw [run, dif_pos h, if_pos hlt]
  have hswap : swap? (arranged n σ) (partner k counters[k]) k =
      some (arranged n (σ * swap (partner k counters[k]) k)) := by
    rw [swap?, dif_pos ⟨hpartner, h⟩, swap_arranged]
  show (swap? _ (partner k counters[k]) k).bind _ = _
  rw [hswap, ← toList_arranged]
  rfl

theorem run_of_le (h : k < n) (hle : k ≤ counters[k]) :
    run ⟨v, counters, k, found⟩ = run ⟨v, counters.set k 0, k + 1, found⟩ := by
  rw [run, dif_pos h, if_neg (Nat.not_lt.mpr hle)]

theorem run_of_end : run ⟨v, counters, n, found⟩ = some found := by
  rw [run, dif_neg (Nat.lt_irrefl n)]

end Steps

/-- With the counters before a place at zero, the loop comes to that place with its arrangements
visited, and with all counters as they were. -/
theorem run_visits {k : Nat} (h : k ≤ n) (σ : Perm Nat) {counters : Vector Nat n}
    (hzero : ∀ j (hj : j < k), counters[j] = 0) (found : List (List Nat)) :
    run ⟨arranged n σ, counters, 0, found ++ [(List.range n).map σ]⟩ =
      run ⟨arranged n (σ * turn k), counters, k,
        found ++ (visits k).map fun τ : Perm Nat => (List.range n).map (σ * τ)⟩ := by
  induction k generalizing σ counters found with
  | zero => simp [turn, visits]
  | succ k ih =>
    have hset : counters.set k 0 = counters := by
      rw [← hzero k (Nat.lt_succ_self k), Vector.set_getElem_self]
    have hbefore : ∀ c j (hj : j < k), (counters.set k c)[j] = 0 := by
      intro c j hj
      rw [Vector.getElem_set_ne _ _ (Nat.ne_of_gt hj)]
      exact hzero j (Nat.lt_succ_of_lt hj)
    -- At the end of round `c` the counter of place `k` is `c`.
    have rounds : ∀ c ≤ k,
        run ⟨arranged n σ, counters, 0, found ++ [(List.range n).map σ]⟩ =
          run ⟨arranged n (σ * (roundStart (turn k) k c * turn k)), counters.set k c, k,
            found ++ (visitsUpTo k c).map fun τ : Perm Nat => (List.range n).map (σ * τ)⟩ := by
      intro c hc
      induction c with
      | zero =>
        rw [ih (Nat.le_of_succ_le h) σ fun j hj => hzero j (Nat.lt_succ_of_lt hj), hset,
          visitsUpTo_zero, roundStart, one_mul]
      | succ c ihc =>
        have hcounter : (counters.set k c)[k] = c := Vector.getElem_set_self h
        have hnext : σ * (roundStart (turn k) k c * turn k) * swap (partner k c) k =
            σ * roundStart (turn k) k (c + 1) := by simp only [roundStart, mul_assoc]
        -- The loop swaps, counts this place up and starts over from the first.
        rw [ihc (Nat.le_of_succ_le hc), run_of_lt h (hcounter.trans_lt hc), hcounter, hnext,
          Vector.set_set, ih (Nat.le_of_succ_le h) _ (hbefore (c + 1)), visitsUpTo_succ,
          List.map_append, List.append_assoc, List.map_map]
        simp only [Function.comp_def, mul_assoc]
    rw [rounds k (Nat.le_refl k), run_of_le h (Vector.getElem_set_self h).ge, Vector.set_set, hset,
      visits_succ, turn]

theorem run_start (n : Nat) : (start n).run = some (permutations n) := by
  have hzero : ∀ j (hj : j < n), (Vector.replicate n 0)[j] = 0 := fun j hj =>
    Vector.getElem_replicate hj
  have hrun := run_visits (Nat.le_refl n) 1 hzero []
  rw [run_of_end] at hrun
  rw [permutations_eq_map]
  simpa [start, ← arranged_one] using hrun

end Counting

end ValueSyntax
