import ValueSyntax.Proofs.Number.Digits
import ValueSyntax.Proofs.Text.Runs
import ValueSyntax.Text.Quoted

namespace ValueSyntax.Text

/-- How a character stands between quotes. -/
inductive Quotes (c : Char) : List Char → Prop
  | short {e : Char} (h : (c, e) ∈ shortEscapes) : Quotes c ['\\', e]
  | codePoint : Quotes c ('\\' :: 'u' :: '\x7b' :: (hexadecimal c.toNat ++ ['\x7d']))
  | plain (hescape : c ≠ '\\') (hquote : c ≠ '"') : Quotes c [c]

theorem mem_shortEscapes_of_lookup {c e : Char} (h : shortEscapes.lookup c = some e) :
    (c, e) ∈ shortEscapes := by
  obtain ⟨before, after, hsplit, -⟩ := List.lookup_eq_some_iff.mp h
  rw [hsplit]
  exact List.mem_append_right _ List.mem_cons_self

theorem quotes (c : Char) : Quotes c (quotedChar c) := by
  unfold quotedChar
  split
  · next h => exact .short (mem_shortEscapes_of_lookup h)
  · next h =>
    split
    · exact .codePoint
    · refine .plain ?_ ?_
      · rintro rfl
        cases h
      · rintro rfl
        cases h

theorem Quotes.exists_cons {c : Char} {u : List Char} (h : Quotes c u) :
    ∃ d v, u = d :: v ∧ d ≠ '"' := by
  cases h with
  | short => exact ⟨_, _, rfl, by decide⟩
  | codePoint => exact ⟨_, _, rfl, by decide⟩
  | plain _ hquote => exact ⟨_, _, rfl, hquote⟩

theorem ne_close_of_mem_hexadecimal {n : Nat} : ∀ c ∈ hexadecimal n, decide (c ≠ '\x7d') := by
  intro c hc
  obtain ⟨d, hd, rfl⟩ := Number.exists_digit_of_mem_toDigits (by decide) hc
  have hdigits : ∀ d < 16, decide (Nat.digitChar d ≠ '\x7d') := by decide
  exact hdigits d hd

/-- A character can be told from what it looks like between quotes, whatever follows. -/
theorem Quotes.append_inj {c d : Char} {u v x y : List Char} (hu : Quotes c u) (hv : Quotes d v)
    (h : u ++ x = v ++ y) : c = d ∧ x = y := by
  have hshort : ∀ p ∈ shortEscapes, ∀ q ∈ shortEscapes, p.2 = q.2 → p = q := by decide
  have hmark : ∀ p ∈ shortEscapes, p.2 ≠ 'u' := by decide
  cases hu with
  | short hc =>
    cases hv with
    | short hd =>
      cases h
      cases hshort _ hc _ hd rfl
      exact ⟨rfl, rfl⟩
    | codePoint =>
      cases h
      exact absurd rfl (hmark _ hc)
    | plain hescape =>
      cases h
      contradiction
  | codePoint =>
    cases hv with
    | short hd =>
      cases h
      exact absurd rfl (hmark _ hd)
    | codePoint =>
      simp only [List.cons_append, List.cons.injEq, true_and, List.append_assoc,
        List.nil_append] at h
      -- Both runs of digits end at the closing brace.
      obtain ⟨hdigits, hrest⟩ := run_append_inj ne_close_of_mem_hexadecimal
        ne_close_of_mem_hexadecimal (stops_cons.mpr (by decide)) (stops_cons.mpr (by decide)) h
      exact ⟨Char.toNat_inj.mp (Number.toDigits_inj (by decide) (by decide) hdigits),
        (List.cons.inj hrest).2⟩
    | plain hescape =>
      cases h
      contradiction
  | plain hescape =>
    cases hv with
    | plain =>
      cases h
      exact ⟨rfl, rfl⟩
    | _ =>
      cases h
      contradiction

theorem flatMap_quotedChar_inj {s t x y : List Char}
    (h : s.flatMap quotedChar ++ '"' :: x = t.flatMap quotedChar ++ '"' :: y) : s = t ∧ x = y := by
  -- No character inside is written with a quote in front, so the closing one is found.
  have hclose : ∀ (c : Char) (cs x y : List Char), '"' :: x ≠ quotedChar c ++ cs ++ '"' :: y := by
    intro c cs x y h
    obtain ⟨d, v, hcons, hd⟩ := (quotes c).exists_cons
    rw [hcons] at h
    exact hd (List.cons.inj h).1.symm
  induction s generalizing t with
  | nil =>
    cases t with
    | nil => exact ⟨rfl, (List.cons.inj h).2⟩
    | cons d t => exact absurd h (hclose d _ _ _)
  | cons c s ih =>
    cases t with
    | nil => exact absurd h.symm (hclose c _ _ _)
    | cons d t =>
      simp only [List.flatMap_cons, List.append_assoc] at h
      obtain ⟨rfl, hafter⟩ := (quotes c).append_inj (quotes d) h
      obtain ⟨rfl, hrest⟩ := ih hafter
      exact ⟨rfl, hrest⟩

/-- A quoted text ends at its closing quote and says what was quoted. -/
theorem quotedChars_append_inj {s t x y : List Char} (h : quotedChars s ++ x = quotedChars t ++ y) :
    s = t ∧ x = y := by
  simp only [quotedChars, List.cons_append, List.append_assoc, List.nil_append] at h
  exact flatMap_quotedChar_inj (List.cons.inj h).2

end ValueSyntax.Text
