import ValueSyntax.Text.Blank

namespace ValueSyntax.Text

theorem lt_128_of_isAlphanum {c : Char} (h : c.isAlphanum) : c.toNat < 128 := by
  rcases (Bool.or_eq_true _ _).mp h with h | hdigit
  · rcases (Bool.or_eq_true _ _).mp h with hupper | hlower
    · have hle : c.val ≤ 'Z'.val := (of_decide_eq_true hupper).2
      exact Nat.lt_of_le_of_lt hle (by decide)
    · have hle : c.val ≤ 'z'.val := of_decide_eq_true ((Bool.and_eq_true _ _).mp hlower).2
      exact Nat.lt_of_le_of_lt hle (by decide)
  · have hle : c.val ≤ '9'.val := of_decide_eq_true ((Bool.and_eq_true _ _).mp hdigit).2
    exact Nat.lt_of_le_of_lt hle (by decide)

theorem ascii_imp (p q : Char → Bool) (h : ∀ n < 128, p (Char.ofNat n) → q (Char.ofNat n))
    {c : Char} (hc : c.toNat < 128) (hp : p c) : q c := by
  have := h c.toNat hc
  rw [Char.ofNat_toNat] at this
  exact this hp

def isWordChar (c : Char) : Bool := c.isAlphanum || c = '_' || c = '-' || c = '.'

theorem lt_128_of_isWordChar {c : Char} (h : isWordChar c) : c.toNat < 128 := by
  simp only [isWordChar, Bool.or_eq_true, decide_eq_true_eq] at h
  rcases h with ((h | rfl) | rfl) | rfl
  · exact lt_128_of_isAlphanum h
  all_goals decide

theorem isBlank_of_isWordChar {c : Char} (h : isWordChar c) : isBlank c = false := by
  have := ascii_imp isWordChar (!isBlank ·) (by decide +kernel) (lt_128_of_isWordChar h) h
  simpa using this

end ValueSyntax.Text
