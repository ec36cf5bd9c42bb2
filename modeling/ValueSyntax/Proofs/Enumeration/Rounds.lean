import Mathlib.Algebra.Group.End
import Mathlib.Logic.Equiv.Basic
import ValueSyntax.Enumeration.Permutations

namespace ValueSyntax

open Equiv

/-- The place that the swap at the end of a round exchanges with place `k`. -/
def partner (k c : Nat) : Nat := if k % 2 = 0 then 0 else c

theorem partner_lt {k c : Nat} (h : c < k) : partner k c < k := by
  unfold partner
  split <;> omega

/-- Where the elements stand when a round of place `k` begins, if `turn` is what arranging the
places before it does to them. -/
def roundStart (turn : Perm Nat) (k : Nat) : Nat → Perm Nat
  | 0 => 1
  | c + 1 => roundStart turn k c * turn * swap (partner k c) k

/-- What arranging the first `k` places comes to in the end. -/
def turn : Nat → Perm Nat
  | 0 => 1
  | k + 1 => roundStart (turn k) k k * turn k

/-- Where the elements stand at each visit, for the first `k` places. -/
def visits : Nat → List (Perm Nat)
  | 0 => [1]
  | k + 1 => (List.range (k + 1)).flatMap fun c => (visits k).map (roundStart (turn k) k c * ·)

/-- The visits up to a round of place `k`. -/
def visitsUpTo (k c : Nat) : List (Perm Nat) :=
  (List.range (c + 1)).flatMap fun c => (visits k).map (roundStart (turn k) k c * ·)

theorem visits_succ (k : Nat) : visits (k + 1) = visitsUpTo k k := rfl

theorem visitsUpTo_zero (k : Nat) : visitsUpTo k 0 = visits k := by
  simp [visitsUpTo, roundStart]

theorem visitsUpTo_succ (k c : Nat) :
    visitsUpTo k (c + 1) =
      visitsUpTo k c ++ (visits k).map (roundStart (turn k) k (c + 1) * ·) := by
  rw [visitsUpTo, List.range_succ, List.flatMap_append, List.flatMap_singleton]
  rfl

def arranged (n : Nat) (σ : Perm Nat) : Vector Nat n := .ofFn fun i => σ i

theorem arranged_one (n : Nat) : arranged n 1 = .ofFn fun i => i.val := rfl

theorem toList_arranged (n : Nat) (σ : Perm Nat) :
    (arranged n σ).toList = (List.range n).map σ := by
  rw [arranged, Vector.toList_ofFn]
  exact List.ext_getElem (by simp) fun i _ _ => by simp

theorem swap_arranged {n i j : Nat} (hi : i < n) (hj : j < n) (σ : Perm Nat) :
    (arranged n σ).swap i j = arranged n (σ * swap i j) := by
  ext m hm
  rw [Vector.getElem_swap]
  simp only [arranged, Vector.getElem_ofFn, Perm.mul_apply, swap_apply_def]
  split
  · rfl
  · split <;> rfl

theorem fold_eq_of_steps {α : Type} {m : Nat} {f : (i : Nat) → i < m → α → α} (state : Nat → α)
    (h : ∀ i hi, f i hi (state i) = state (i + 1)) : m.fold f (state 0) = state m := by
  induction m with
  | zero => rfl
  | succ m ih => rw [Nat.fold_succ, ih fun i hi => h i (Nat.lt_succ_of_lt hi), h]

section Visits

variable {β : Type} {n : Nat} {visit : β → Vector Nat n → β}

theorem visitArrangements_arranged (k : Nat) (h : k ≤ n) (σ : Perm Nat) (b : β) :
    visitArrangements visit k h (arranged n σ, b) =
      (arranged n (σ * turn k), (visits k).foldl (fun b τ => visit b (arranged n (σ * τ))) b) := by
  induction k generalizing σ b with
  | zero => simp [visitArrangements, turn, visits]
  | succ k ih =>
    let state (c : Nat) : Vector Nat n × β :=
      (arranged n (σ * (roundStart (turn k) k c * turn k)),
        (visitsUpTo k c).foldl (fun b τ => visit b (arranged n (σ * τ))) b)
    have hfirst : visitArrangements visit k (Nat.le_of_lt h) (arranged n σ, b) = state 0 := by
      simp only [ih, state, visitsUpTo_zero, roundStart, one_mul]
    rw [visitArrangements, hfirst]
    refine fold_eq_of_steps state fun c hc => ?_
    dsimp only [state]
    rw [swap_arranged, ih, visitsUpTo_succ, List.foldl_append, List.foldl_map]
    simp only [roundStart, partner, mul_assoc]

theorem foldPermutations_eq (b : β) :
    foldPermutations n visit b = (visits n).foldl (fun b σ => visit b (arranged n σ)) b := by
  rw [foldPermutations, ← arranged_one, visitArrangements_arranged]
  simp only [one_mul]

end Visits

theorem permutations_eq_map (n : Nat) :
    permutations n = (visits n).map fun σ : Perm Nat => (List.range n).map σ := by
  rw [permutations, foldPermutations_eq, List.foldl_flip_cons_eq_append, List.append_nil,
    List.reverse_reverse]
  exact List.map_congr_left fun σ _ => toList_arranged n σ

end ValueSyntax
