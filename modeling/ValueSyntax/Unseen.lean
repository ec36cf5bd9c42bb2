namespace ValueSyntax

variable {β : Type} [DecidableEq β]

/-- How many of the listed elements have not been seen: what bounds a walk that sees each of them
at most once. -/
def unseen (all seen : List β) : Nat := all.countP (· ∉ seen)

theorem unseen_cons_le (all seen : List β) (b : β) : unseen all (b :: seen) ≤ unseen all seen :=
  List.countP_mono_left fun x _ hx => by simp_all

theorem unseen_cons_lt {all seen : List β} {b : β} (hb : b ∈ all) (hs : b ∉ seen) :
    unseen all (b :: seen) < unseen all seen := by
  induction all with
  | nil => cases hb
  | cons x all ih =>
    have hle := unseen_cons_le all seen b
    unfold unseen at hle ih ⊢
    by_cases hx : x = b
    · rw [List.countP_cons_of_neg (by simp [hx]), List.countP_cons_of_pos (by simp [hx, hs])]
      exact Nat.lt_succ_of_le hle
    · have hlt := ih ((List.mem_cons.mp hb).resolve_left fun h => hx h.symm)
      by_cases hm : x ∈ seen
      · rwa [List.countP_cons_of_neg (by simp [hm]), List.countP_cons_of_neg (by simp [hm])]
      · rw [List.countP_cons_of_pos (by simp [hm, hx]), List.countP_cons_of_pos (by simp [hm])]
        exact Nat.succ_lt_succ hlt

end ValueSyntax
