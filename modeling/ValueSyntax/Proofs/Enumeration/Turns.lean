import Mathlib.GroupTheory.GroupAction.FixingSubgroup
import Mathlib.GroupTheory.Perm.Cycle.Basic
import ValueSyntax.Proofs.Enumeration.Rounds

namespace ValueSyntax

open Equiv

def permsBelow (k : Nat) : Subgroup (Perm Nat) := fixingSubgroup (Perm Nat) (Set.Ici k)

section Below

variable {j k i x : Nat} {σ : Perm Nat}

theorem mem_permsBelow : σ ∈ permsBelow k ↔ ∀ x, k ≤ x → σ x = x :=
  mem_fixingSubgroup_iff (Perm Nat)

theorem permsBelow_mono (h : j ≤ k) : permsBelow j ≤ permsBelow k :=
  fun _ hσ => mem_permsBelow.mpr fun x hx => mem_permsBelow.mp hσ x (h.trans hx)

theorem swap_mem_permsBelow (hi : i < k) (hj : j < k) : swap i j ∈ permsBelow k :=
  mem_permsBelow.mpr fun _ hx =>
    swap_apply_of_ne_of_ne (hi.trans_le hx).ne' (hj.trans_le hx).ne'

theorem apply_lt_iff (h : σ ∈ permsBelow k) : σ x < k ↔ x < k := by
  constructor
  · intro hlt
    by_contra hle
    rw [mem_permsBelow.mp h x (Nat.not_lt.mp hle)] at hlt
    exact hle hlt
  · intro hlt
    by_contra hle
    have hfix := σ.injective (mem_permsBelow.mp h (σ x) (Nat.not_lt.mp hle))
    rw [hfix] at hle
    exact hle hlt

theorem map_range_perm (h : σ ∈ permsBelow k) : ((List.range k).map σ).Perm (List.range k) := by
  rw [List.perm_ext_iff_of_nodup (List.nodup_range.map σ.injective) List.nodup_range]
  intro x
  rw [List.mem_map, List.mem_range]
  constructor
  · rintro ⟨y, hy, rfl⟩
    exact (apply_lt_iff h).mpr (List.mem_range.mp hy)
  · intro hx
    exact ⟨σ⁻¹ x, List.mem_range.mpr ((apply_lt_iff (inv_mem h)).mpr hx), σ.apply_symm_apply x⟩

end Below

/-- One cycle through the first `k` places. -/
def IsFullCycle (k : Nat) (σ : Perm Nat) : Prop :=
  ∃ l : List Nat, l.Perm (List.range k) ∧ σ = l.formPerm

namespace IsFullCycle

variable {k c d : Nat} {σ : Perm Nat}

theorem mul_swap (h : IsFullCycle k σ) : IsFullCycle (k + 1) (σ * swap 0 k) := by
  obtain ⟨l, hl, rfl⟩ := h
  rcases Nat.eq_zero_or_pos k with rfl | hk
  · rw [List.range_zero, List.perm_nil] at hl
    exact ⟨[0], List.Perm.refl _, by rw [hl, swap_self]; rfl⟩
  · obtain ⟨a, b, rfl⟩ := List.append_of_mem (hl.mem_iff.mpr (List.mem_range.mpr hk))
    have hrotated : a ++ 0 :: b ~r (b ++ a) ++ [0] := by
      rw [List.append_cons, List.append_assoc b]
      exact List.isRotated_append
    refine ⟨(b ++ a) ++ [0, k], ?_, ?_⟩
    · rw [List.append_cons, List.range_succ]
      exact (hrotated.perm.symm.trans hl).append_right [k]
    · have hnodup := hl.symm.nodup List.nodup_range
      rw [List.formPerm_eq_of_isRotated hnodup hrotated, List.formPerm_append_pair]

theorem pow_eq_one (h : IsFullCycle k σ) : σ ^ k = 1 := by
  obtain ⟨l, hl, rfl⟩ := h
  have hlength : l.length = k := hl.length_eq.trans List.length_range
  have hnodup := hl.symm.nodup List.nodup_range
  exact hlength ▸ List.formPerm_pow_length_eq_one_of_nodup l hnodup

/-- Until it comes back, a place is taken to a new one each time. -/
theorem pow_apply_inj (h : IsFullCycle (k + 1) σ) (hc : c ≤ k) (hd : d ≤ k)
    (heq : (σ ^ c) k = (σ ^ d) k) : c = d := by
  obtain ⟨l, hl, rfl⟩ := h
  have hplaces : {x | x ∈ l} = (Finset.range (k + 1) : Set Nat) :=
    Set.ext fun x => by simp [hl.mem_iff]
  have hcycle := (hl.symm.nodup List.nodup_range).isCycleOn_formPerm
  rw [hplaces] at hcycle
  have hmod := (hcycle.pow_apply_eq_pow_apply (Finset.self_mem_range_succ k)).mp heq
  rw [Finset.card_range] at hmod
  exact hmod.eq_of_lt_of_lt (Nat.lt_succ_of_le hc) (Nat.lt_succ_of_le hd)

end IsFullCycle

section Even

variable {k c : Nat} {σ : Perm Nat}

theorem partner_of_even (h : k % 2 = 0) : partner k c = 0 := if_pos h

theorem partner_of_odd (h : k % 2 = 1) : partner k c = c := if_neg (by omega)

theorem roundStart_of_even (h : k % 2 = 0) : roundStart σ k c = (σ * swap 0 k) ^ c := by
  induction c with
  | zero => rfl
  | succ c ih => rw [roundStart, ih, partner_of_even h, pow_succ, mul_assoc]

/-- A last round more would bring every element back, and its swap is all that is missing. -/
theorem turn_succ_of_even (h : k % 2 = 0) (hturn : IsFullCycle k (turn k)) :
    turn (k + 1) = swap 0 k := by
  have hpow := hturn.mul_swap.pow_eq_one
  rw [pow_succ, ← mul_assoc, ← roundStart_of_even h] at hpow
  rw [turn, eq_inv_of_mul_eq_one_left hpow, swap_inv]

end Even

section Odd

variable {k c d : Nat} {σ : Perm Nat}

/-- The cycle through place `k` and those that the first rounds take an element from, the latest
first. -/
def roundCycle (σ : Perm Nat) (k c : Nat) : List Nat := ((List.range c).map σ).reverse ++ [k]

theorem roundCycle_succ : roundCycle σ k (c + 1) = σ c :: roundCycle σ k c := by
  simp [roundCycle, List.range_succ]

theorem nodup_roundCycle (hσ : σ ∈ permsBelow k) (h : c ≤ k) : (roundCycle σ k c).Nodup := by
  rw [roundCycle, List.nodup_append]
  refine ⟨List.nodup_reverse.mpr (List.nodup_range.map σ.injective), List.nodup_singleton k, ?_⟩
  intro x hx y hy
  obtain ⟨i, hi, rfl⟩ := List.mem_map.mp (List.mem_reverse.mp hx)
  rw [List.mem_singleton.mp hy]
  exact ((apply_lt_iff hσ).mpr ((List.mem_range.mp hi).trans_le h)).ne

theorem roundCycle_perm (hσ : σ ∈ permsBelow k) : (roundCycle σ k k).Perm (List.range (k + 1)) := by
  rw [roundCycle, List.range_succ]
  exact ((List.reverse_perm _).trans (map_range_perm hσ)).append_right [k]

theorem formPerm_roundCycle_succ (hσ : σ ∈ permsBelow k) (h : c < k) :
    (roundCycle σ k (c + 1)).formPerm = (roundCycle σ k c).formPerm * swap (σ c) k := by
  have hrotated : roundCycle σ k (c + 1) ~r ((List.range c).map σ).reverse ++ [k, σ c] := by
    rw [roundCycle_succ, List.append_cons]
    exact List.isRotated_append (l := [σ c])
  rw [List.formPerm_eq_of_isRotated (nodup_roundCycle hσ h) hrotated, List.formPerm_append_pair,
    roundCycle, swap_comm]

theorem pow_eq_one_of_even (hσ : σ = swap 0 (k - 1)) (h : c % 2 = 0) : σ ^ c = 1 := by
  obtain ⟨m, rfl⟩ := Nat.dvd_of_mod_eq_zero h
  rw [pow_mul, hσ, pow_two, swap_mul_self, one_pow]

/-- The swaps that end the rounds of an odd number of places, with the turns before them, make one
cycle. -/
theorem roundStart_of_odd (h : k % 2 = 1) (hσ : σ = swap 0 (k - 1)) (hc : c ≤ k) :
    roundStart σ k c = (roundCycle σ k c).formPerm * σ ^ c := by
  have hbelow : σ ∈ permsBelow k := hσ ▸ swap_mem_permsBelow (by omega) (by omega)
  induction c with
  | zero => rfl
  | succ c ih =>
    -- An even number of turns changes nothing, and an odd one only the first place and the last.
    have hpow : (σ ^ (c + 1)) c = σ c := by
      rcases Nat.mod_two_eq_zero_or_one c with heven | hodd
      · rw [pow_succ, pow_eq_one_of_even hσ heven, one_mul]
      · have hfix : σ c = c := hσ ▸ swap_apply_of_ne_of_ne (by omega) (by omega)
        rw [pow_eq_one_of_even hσ (by omega), hfix, Perm.one_apply]
    have hk : (σ ^ (c + 1)) k = k :=
      mem_permsBelow.mp (pow_mem hbelow (c + 1)) k (Nat.le_refl k)
    calc
      roundStart σ k (c + 1)
      _ = (roundCycle σ k c).formPerm * (σ ^ (c + 1) * swap c k) := by
        rw [roundStart, ih (Nat.le_of_succ_le hc), partner_of_odd h, pow_succ]
        simp only [mul_assoc]
      _ = (roundCycle σ k c).formPerm * swap (σ c) k * σ ^ (c + 1) := by
        rw [mul_swap_eq_swap_mul, hpow, hk, mul_assoc]
      _ = (roundCycle σ k (c + 1)).formPerm * σ ^ (c + 1) := by
        rw [formPerm_roundCycle_succ hbelow hc]

theorem isFullCycle_turn_succ_of_odd (h : k % 2 = 1) (hturn : turn k = swap 0 (k - 1)) :
    IsFullCycle (k + 1) (turn (k + 1)) := by
  have hbelow : turn k ∈ permsBelow k := hturn ▸ swap_mem_permsBelow (by omega) (by omega)
  refine ⟨_, roundCycle_perm hbelow, ?_⟩
  rw [turn, roundStart_of_odd h hturn (Nat.le_refl k), mul_assoc, ← pow_succ,
    pow_eq_one_of_even hturn (by omega), mul_one]

theorem roundStart_apply_of_odd (h : k % 2 = 1) (hσ : σ = swap 0 (k - 1)) (hc : c ≤ k) :
    roundStart σ k c k = if c = 0 then k else σ (c - 1) := by
  have hbelow : σ ∈ permsBelow k := hσ ▸ swap_mem_permsBelow (by omega) (by omega)
  rw [roundStart_of_odd h hσ hc, Perm.mul_apply,
    mem_permsBelow.mp (pow_mem hbelow c) k (Nat.le_refl k)]
  cases c with
  | zero => rfl
  | succ c =>
    rw [roundCycle_succ, if_neg (Nat.succ_ne_zero c)]
    exact List.formPerm_cons_concat_apply_last _ _ _

end Odd

theorem turn_spec (k : Nat) :
    (k % 2 = 0 → IsFullCycle k (turn k)) ∧ (k % 2 = 1 → turn k = swap 0 (k - 1)) := by
  induction k with
  | zero => exact ⟨fun _ => ⟨[], List.Perm.refl _, rfl⟩, nofun⟩
  | succ k ih =>
    constructor
    · exact fun h => isFullCycle_turn_succ_of_odd (by omega) (ih.2 (by omega))
    · exact fun h => turn_succ_of_even (by omega) (ih.1 (by omega))

theorem turn_mem (k : Nat) : turn k ∈ permsBelow k := by
  rcases Nat.mod_two_eq_zero_or_one k with h | h
  · obtain ⟨l, hl, hturn⟩ := (turn_spec k).1 h
    rw [hturn, mem_permsBelow]
    intro x hx
    refine List.formPerm_apply_of_notMem fun hmem => Nat.not_lt.mpr hx ?_
    exact List.mem_range.mp (hl.mem_iff.mp hmem)
  · rw [(turn_spec k).2 h]
    exact swap_mem_permsBelow (by omega) (by omega)

theorem roundStart_mem {k c : Nat} (hc : c ≤ k) :
    roundStart (turn k) k c ∈ permsBelow (k + 1) := by
  induction c with
  | zero => exact one_mem _
  | succ c ih =>
    have hturn := permsBelow_mono (Nat.le_succ k) (turn_mem k)
    have hpartner : partner k c < k + 1 := (partner_lt hc).trans (Nat.lt_succ_self k)
    exact mul_mem (mul_mem (ih (Nat.le_of_succ_le hc)) hturn)
      (swap_mem_permsBelow hpartner (Nat.lt_succ_self k))

theorem roundStart_apply_inj {k c d : Nat} (hc : c ≤ k) (hd : d ≤ k)
    (h : roundStart (turn k) k c k = roundStart (turn k) k d k) : c = d := by
  rcases Nat.mod_two_eq_zero_or_one k with hk | hk
  · rw [roundStart_of_even hk, roundStart_of_even hk] at h
    exact ((turn_spec k).1 hk).mul_swap.pow_apply_inj hc hd h
  · have hturn := (turn_spec k).2 hk
    rw [roundStart_apply_of_odd hk hturn hc, roundStart_apply_of_odd hk hturn hd] at h
    have hne : ∀ i, i - 1 < k → turn k (i - 1) ≠ k := fun i hi =>
      ((apply_lt_iff (turn_mem k)).mpr hi).ne
    split at h
    · split at h
      · omega
      · exact absurd h.symm (hne d (by omega))
    · split at h
      · exact absurd h (hne c (by omega))
      · have hplaces := (turn k).injective h
        omega

end ValueSyntax
