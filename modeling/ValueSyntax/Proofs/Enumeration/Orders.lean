import Mathlib.Data.List.Permutation
import Mathlib.Data.Nat.Factorial.Basic
import ValueSyntax.Proofs.Enumeration.Counters
import ValueSyntax.Proofs.Enumeration.Turns

namespace ValueSyntax

open Equiv

section Visits

variable {k n : Nat} {σ τ : Perm Nat}

theorem length_visits (k : Nat) : (visits k).length = k.factorial := by
  induction k with
  | zero => rfl
  | succ k ih => simp [visits, ih, Nat.factorial_succ]

theorem head?_visits (k : Nat) : (visits k).head? = some 1 := by
  induction k with
  | zero => rfl
  | succ k ih =>
    rw [visits, List.range_succ_eq_map, List.flatMap_cons, List.head?_append, List.head?_map, ih]
    rfl

theorem mem_permsBelow_of_mem_visits (h : σ ∈ visits k) : σ ∈ permsBelow k := by
  induction k generalizing σ with
  | zero =>
    rw [List.mem_singleton.mp h]
    exact one_mem _
  | succ k ih =>
    obtain ⟨c, hc, h⟩ := List.mem_flatMap.mp h
    obtain ⟨τ, hτ, rfl⟩ := List.mem_map.mp h
    have hstart := roundStart_mem (Nat.le_of_lt_succ (List.mem_range.mp hc))
    exact mul_mem hstart (permsBelow_mono (Nat.le_succ k) (ih hτ))

/-- What stands in the last place tells the rounds apart. -/
theorem nodup_visits (k : Nat) : (visits k).Nodup := by
  induction k with
  | zero => exact List.nodup_singleton 1
  | succ k ih =>
    rw [visits, List.nodup_flatMap]
    refine ⟨fun c _ => ih.map (mul_right_injective _), ?_⟩
    refine List.pairwise_lt_range.imp_of_mem fun {c d} hc hd hlt => ?_
    intro σ hσc hσd
    obtain ⟨τ, hτ, rfl⟩ := List.mem_map.mp hσc
    obtain ⟨ρ, hρ, heq⟩ := List.mem_map.mp hσd
    have hplace := congrArg (fun π : Perm Nat => π k) heq
    have hτk := mem_permsBelow.mp (mem_permsBelow_of_mem_visits hτ) k (Nat.le_refl k)
    have hρk := mem_permsBelow.mp (mem_permsBelow_of_mem_visits hρ) k (Nat.le_refl k)
    simp only [Perm.mul_apply, hτk, hρk] at hplace
    rw [List.mem_range, Nat.lt_succ_iff] at hc hd
    exact hlt.ne' (roundStart_apply_inj hd hc hplace)

theorem eq_of_map_range_eq (hσ : σ ∈ permsBelow n) (hτ : τ ∈ permsBelow n)
    (h : (List.range n).map σ = (List.range n).map τ) : σ = τ := by
  ext x
  by_cases hx : x < n
  · exact List.map_inj_left.mp h x (List.mem_range.mpr hx)
  · rw [mem_permsBelow.mp hσ x (Nat.not_lt.mp hx), mem_permsBelow.mp hτ x (Nat.not_lt.mp hx)]

end Visits

section Permutations

variable {n : Nat}

theorem length_permutations (n : Nat) : (permutations n).length = n.factorial := by
  rw [permutations_eq_map, List.length_map, length_visits]

theorem nodup_permutations (n : Nat) : (permutations n).Nodup := by
  rw [permutations_eq_map]
  refine (nodup_visits n).map_on fun σ hσ τ hτ h => ?_
  exact eq_of_map_range_eq (mem_permsBelow_of_mem_visits hσ) (mem_permsBelow_of_mem_visits hτ) h

/-- There are as many of them as there are orders, so none is left out. -/
theorem permutations_perm (n : Nat) : (permutations n).Perm (List.range n).permutations := by
  have hsubset : permutations n ⊆ (List.range n).permutations := by
    rw [permutations_eq_map]
    intro l hl
    obtain ⟨σ, hσ, rfl⟩ := List.mem_map.mp hl
    exact List.mem_permutations.mpr (map_range_perm (mem_permsBelow_of_mem_visits hσ))
  refine ((nodup_permutations n).subperm hsubset).perm_of_length_le ?_
  rw [List.length_permutations, List.length_range, length_permutations]

theorem mem_permutations_iff {l : List Nat} : l ∈ permutations n ↔ l.Perm (List.range n) :=
  (permutations_perm n).mem_iff.trans List.mem_permutations

theorem head?_permutations (n : Nat) : (permutations n).head? = some (List.range n) := by
  rw [permutations_eq_map, List.head?_map, head?_visits, Option.map_some]
  exact congrArg some (List.map_id _)

end Permutations

/-- The loop over counters ends without a swap out of bounds. It finds every order of the indices
below `n` once and nothing else, `n !` lists in all, and the indices in their own order come
first. -/
theorem orders_come_once (n : Nat) :
    (Counting.start n).run = some (permutations n) ∧
    (permutations n).length = n.factorial ∧
    (permutations n).Nodup ∧
    (∀ l, l ∈ permutations n ↔ l.Perm (List.range n)) ∧
    (permutations n).head? = some (List.range n) :=
  ⟨Counting.run_start n, length_permutations n, nodup_permutations n, fun _ => mem_permutations_iff,
    head?_permutations n⟩

example : permutations 3 = [[0, 1, 2], [1, 0, 2], [2, 0, 1], [0, 2, 1], [1, 2, 0], [2, 1, 0]] := by
  decide

end ValueSyntax
