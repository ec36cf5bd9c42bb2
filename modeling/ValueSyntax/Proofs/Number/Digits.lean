import ValueSyntax.Number.Digits

namespace ValueSyntax.Number

theorem digitsValue_eq (cs : List Char) : digitsValue cs = Nat.ofDigitChars 10 cs 0 := rfl

@[simp] theorem digitsValue_toDigits (n : Nat) : digitsValue (Nat.toDigits 10 n) = n := by
  rw [digitsValue_eq, Nat.ofDigitChars_ten_toDigits]

theorem digitsValue_append_zeros (cs : List Char) (n : Nat) :
    digitsValue (cs ++ List.replicate n '0') = digitsValue cs * tenTo n := by
  rw [digitsValue_eq, Nat.ofDigitChars_append, Nat.ofDigitChars_replicate_zero, digitsValue_eq]
  exact Nat.mul_comm _ _

theorem digitsValue_zeros_append (cs : List Char) (n : Nat) :
    digitsValue (List.replicate n '0' ++ cs) = digitsValue cs := by
  rw [digitsValue_eq, Nat.ofDigitChars_append, Nat.ofDigitChars_replicate_zero, Nat.mul_zero,
    digitsValue_eq]

theorem ne_of_isDigit {c d : Char} (hc : c.isDigit) (hd : d.isDigit = false) : c ≠ d := by
  rintro rfl
  simp [hd] at hc

theorem isDigit_of_mem_toDigits {n : Nat} {c : Char} (h : c ∈ Nat.toDigits 10 n) : c.isDigit :=
  Nat.isDigit_of_mem_toDigits (by decide) (by decide) h

theorem exists_toDigits_cons (n : Nat) : ∃ c cs, Nat.toDigits 10 n = c :: cs ∧ c.isDigit := by
  obtain ⟨c, cs, h⟩ := List.exists_cons_of_ne_nil (Nat.toDigits_ne_nil (n := n) (b := 10))
  exact ⟨c, cs, h, isDigit_of_mem_toDigits (h ▸ List.mem_cons_self ..)⟩

theorem natural?_toDigits (n : Nat) : natural? (Nat.toDigits 10 n) = some n := by
  unfold natural?
  rw [if_pos ⟨Nat.toDigits_ne_nil, List.all_eq_true.mpr fun c hc => isDigit_of_mem_toDigits hc⟩,
    digitsValue_toDigits]

theorem count32?_toDigits {n : Nat} (h : n < twoTo 32) : count32? (Nat.toDigits 10 n) = some n := by
  obtain ⟨c, cs, hcs, hc⟩ := exists_toDigits_cons n
  have hsign : Text.after? ['+'] (Nat.toDigits 10 n) = none := by
    rw [hcs, Text.after?, if_neg]
    rintro rfl
    exact absurd hc (by decide)
  rw [count32?, count?, hsign, Option.getD_none, natural?_toDigits, Option.filter_some,
    if_pos (by simpa using h)]

theorem digitChar_inj {m n : Nat} (hm : m < 16) (hn : n < 16) (h : m.digitChar = n.digitChar) :
    m = n := by
  have hinj : ∀ m < 16, ∀ n < 16, Nat.digitChar m = Nat.digitChar n → m = n := by decide
  exact hinj m hm n hn h

theorem exists_digit_of_mem_toDigits {b : Nat} (hb : 1 < b) {n : Nat} {c : Char}
    (h : c ∈ Nat.toDigits b n) : ∃ d < b, c = d.digitChar := by
  induction n using Nat.strongRecOn with
  | ind n ih =>
    rw [Nat.toDigits_eq_if hb] at h
    split at h
    · next hn => exact ⟨n, hn, List.mem_singleton.mp h⟩
    · next hn =>
      rcases List.mem_append.mp h with h | h
      · exact ih _ (Nat.div_lt_self (by omega) hb) h
      · exact ⟨n % b, Nat.mod_lt n (by omega), List.mem_singleton.mp h⟩

theorem toDigits_inj {b : Nat} (hb : 1 < b) (hb' : b ≤ 16) {m n : Nat}
    (h : Nat.toDigits b m = Nat.toDigits b n) : m = n := by
  have hlast : ∀ k, k % b < 16 := fun k => Nat.lt_of_lt_of_le (Nat.mod_lt k (by omega)) hb'
  -- A number of one digit has fewer digits than one with digits before the last.
  have hshort : ∀ k c d, [c] ≠ Nat.toDigits b k ++ [d] := by
    intro k c d h
    have hlen := congrArg List.length h
    have hpos := Nat.length_toDigits_pos (b := b) (n := k)
    simp only [List.length_append, List.length_singleton] at hlen
    omega
  induction m using Nat.strongRecOn generalizing n with
  | ind m ih =>
    rw [Nat.toDigits_eq_if hb, Nat.toDigits_eq_if hb (n := n)] at h
    split at h <;> split at h
    · exact digitChar_inj (by omega) (by omega) (List.singleton_inj.mp h)
    · exact absurd h (hshort _ _ _)
    · exact absurd h.symm (hshort _ _ _)
    · obtain ⟨hhead, hdigit⟩ := List.append_inj' h rfl
      have hdiv := ih _ (Nat.div_lt_self (by omega) hb) hhead
      have hmod := digitChar_inj (hlast m) (hlast n) (List.singleton_inj.mp hdigit)
      rw [← Nat.div_add_mod m b, hdiv, hmod, Nat.div_add_mod]

theorem integerChars_injective : Function.Injective integerChars := by
  have hsign : ∀ m cs, Nat.toDigits 10 m ≠ '-' :: cs := by
    intro m cs h
    have hdigit := isDigit_of_mem_toDigits (h ▸ List.mem_cons_self : '-' ∈ Nat.toDigits 10 m)
    exact absurd hdigit (by decide)
  intro i j h
  cases i with
  | ofNat m =>
    cases j with
    | ofNat n => exact congrArg Int.ofNat (toDigits_inj (by decide) (by decide) h)
    | negSucc n => exact absurd h (hsign m _)
  | negSucc m =>
    cases j with
    | ofNat n => exact absurd h.symm (hsign n _)
    | negSucc n =>
      have h := toDigits_inj (by decide) (by decide) (List.cons_inj_right _ |>.mp h)
      exact congrArg Int.negSucc (Nat.succ.inj h)

end ValueSyntax.Number
