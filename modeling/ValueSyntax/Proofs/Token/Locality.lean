import ValueSyntax.Proofs.Token.Lexing

namespace ValueSyntax

namespace Text

theorem Stops.of_append {p : Char → Bool} {rest tail : List Char} (h : Stops p (rest ++ tail)) :
    Stops p rest := by
  cases rest with
  | nil => exact stops_nil p
  | cons c rest =>
    rw [List.cons_append, stops_cons] at h
    exact stops_cons.mpr h

theorem stops_dropWhile (p : Char → Bool) (cs : List Char) : Stops p (cs.dropWhile p) := by
  obtain ⟨run, rest, rfl, hrun, hrest⟩ := exists_run p cs
  rwa [dropWhile_run hrun hrest]

theorem after?_of_append {text cs tail rest : List Char}
    (h : after? text (cs ++ tail) = some (rest ++ tail)) : after? text cs = some rest := by
  have hcs := append_of_after? h
  rw [← List.append_assoc] at hcs
  rw [← List.append_cancel_right hcs]
  exact after?_append text rest

theorem after?_eq_none_of_append {text cs tail : List Char}
    (h : after? text (cs ++ tail) = none) : after? text cs = none := by
  cases hcs : after? text cs with
  | none => rfl
  | some rest =>
    rw [← append_of_after? hcs, List.append_assoc, after?_append] at h
    cases h

end Text

namespace Token

open Text

/-- A rule that cuts a part off a text cuts off the same part when the text ends earlier. -/
def Local (cut : List Char → List Char × List Char) : Prop :=
  ∀ cs tail part rest, cut (cs ++ tail) = (part, rest ++ tail) → cut cs = (part, rest)

theorem local_run (p : Char → Bool) : Local fun cs => (cs.takeWhile p, cs.dropWhile p) := by
  intro cs tail part rest h
  obtain ⟨run, more, hcs, hrun, hmore⟩ := exists_run p (cs ++ tail)
  dsimp only at h ⊢
  rw [hcs, takeWhile_run hrun hmore, dropWhile_run hrun hmore, Prod.mk.injEq] at h
  obtain ⟨rfl, rfl⟩ := h
  rw [← List.append_assoc] at hcs
  rw [List.append_cancel_right hcs, takeWhile_run hrun hmore.of_append,
    dropWhile_run hrun hmore.of_append]

theorem local_sign : Local sign := by
  intro cs tail part rest h
  unfold sign at h ⊢
  split at h
  · next ha =>
    cases h
    rw [after?_of_append ha]
  · next ha =>
    rw [Prod.mk.injEq] at h
    rw [after?_eq_none_of_append ha, h.1, List.append_cancel_right h.2]

theorem local_unit : Local unit := by
  intro cs tail part rest h
  unfold unit at h ⊢
  split at h
  · next ha =>
    cases h
    rw [after?_of_append ha]
  · next ha =>
    rw [after?_eq_none_of_append ha]
    exact local_run Char.isAlpha cs tail part rest h

theorem fraction?_eq_some {cs part rest : List Char} :
    fraction? cs = some (part, rest) ↔ ∃ digits, after? ['.'] cs = some (digits ++ rest) ∧
      part = '.' :: digits ∧ digits ≠ [] ∧ (∀ c ∈ digits, c.isDigit) ∧ Stops Char.isDigit rest := by
  simp only [fraction?, Option.bind_eq_bind, Option.bind_eq_some_iff]
  constructor
  · rintro ⟨more, ha, h⟩
    split at h
    · cases h
    · next hne =>
      cases h
      refine ⟨_, ?_, rfl, hne, fun c hc => List.mem_takeWhile_imp hc, stops_dropWhile _ _⟩
      rwa [List.takeWhile_append_dropWhile]
  · rintro ⟨digits, ha, rfl, hne, hdigits, hrest⟩
    refine ⟨_, ha, ?_⟩
    rw [takeWhile_run hdigits hrest, dropWhile_run hdigits hrest, if_neg hne]
    rfl

theorem local_fraction : Local fun cs => (fraction? cs).getD ([], cs) := by
  intro cs tail part rest h
  dsimp only at h ⊢
  cases hf : fraction? (cs ++ tail) with
  | some r =>
    obtain ⟨part, rest'⟩ := r
    rw [hf, Option.getD_some] at h
    cases h
    obtain ⟨digits, ha, rfl, hne, hdigits, hrest⟩ := fraction?_eq_some.mp hf
    rw [← List.append_assoc] at ha
    have hcs := fraction?_eq_some.mpr
      ⟨digits, after?_of_append ha, rfl, hne, hdigits, hrest.of_append⟩
    rw [hcs, Option.getD_some]
  | none =>
    rw [hf, Option.getD_none, Prod.mk.injEq] at h
    obtain ⟨rfl, h⟩ := h
    obtain rfl := List.append_cancel_right h
    cases hcs : fraction? cs with
    | none => rfl
    | some r =>
      -- A point with digits after it stays one when more text follows.
      obtain ⟨digits, ha, _, hne, hdigits, _⟩ := fraction?_eq_some.mp hcs
      obtain ⟨run, more, hmore, hrun, hstop⟩ := exists_run Char.isDigit (r.2 ++ tail)
      have hlong : fraction? (cs ++ tail) = some ('.' :: (digits ++ run), more) := by
        refine fraction?_eq_some.mpr ⟨digits ++ run, ?_, rfl, by simp [hne], ?_, hstop⟩
        · rw [← append_of_after? ha, List.append_assoc, List.append_assoc, List.append_assoc, hmore,
            after?_append]
        · intro c hc
          exact (List.mem_append.mp hc).elim (hdigits c) (hrun c)
      rw [hlong] at hf
      cases hf

theorem number?_eq_some {cs value rest : List Char} {kind : Kind} :
    number? cs = some (kind, value, rest) ↔ ∃ signed digits point letters cs₁ cs₂ cs₃,
      kind = .number ∧ value = signed ++ digits ++ point ++ letters ∧ sign cs = (signed, cs₁) ∧
      (cs₁.takeWhile Char.isDigit, cs₁.dropWhile Char.isDigit) = (digits, cs₂) ∧ digits ≠ [] ∧
      (fraction? cs₂).getD ([], cs₂) = (point, cs₃) ∧ unit cs₃ = (letters, rest) := by
  unfold number?
  dsimp only
  constructor
  · intro h
    split at h
    · cases h
    · next hne =>
      cases h
      exact ⟨_, _, _, _, _, _, _, rfl, rfl, rfl, rfl, hne, rfl, rfl⟩
  · rintro ⟨signed, digits, point, letters, cs₁, cs₂, cs₃, rfl, rfl, hs, hd, hne, hf, hu⟩
    rw [Prod.mk.injEq] at hd
    rw [hs, hd.1, hd.2, hf, hu, if_neg hne]

theorem number?_of_append {cs tail value rest : List Char} {kind : Kind}
    (h : number? (cs ++ tail) = some (kind, value, rest ++ tail)) :
    number? cs = some (kind, value, rest) := by
  obtain ⟨signed, digits, point, letters, cs₁, cs₂, cs₃, rfl, rfl, hs, hd, hne, hf, hu⟩ :=
    number?_eq_some.mp h
  -- Each part ends before the text that is cut off.
  have h₃ : letters ++ (rest ++ tail) = cs₃ := by
    have := unit_append cs₃
    rwa [hu] at this
  have h₂ : point ++ cs₃ = cs₂ := by
    have := getD_append fraction? cs₂ fun _ _ => fraction?_append
    rwa [hf] at this
  have h₁ : digits ++ cs₂ = cs₁ := by
    rw [Prod.mk.injEq] at hd
    rw [← hd.1, ← hd.2, List.takeWhile_append_dropWhile]
  rw [← List.append_assoc] at h₃
  subst h₃
  rw [← List.append_assoc] at h₂
  subst h₂
  rw [← List.append_assoc] at h₁
  subst h₁
  exact number?_eq_some.mpr ⟨signed, digits, point, letters, _, _, _, rfl, rfl,
    local_sign _ _ _ _ hs, local_run _ _ _ _ _ hd, hne, local_fraction _ _ _ _ hf,
    local_unit _ _ _ _ hu⟩

theorem kind_of_reference? {cs value rest : List Char} {kind : Kind}
    (h : reference? cs = some (kind, value, rest)) : kind = .reference := by
  simp only [reference?, Option.bind_eq_bind, Option.bind_eq_some_iff] at h
  obtain ⟨_, _, _, _, _, _, h⟩ := h
  cases h
  rfl

theorem kind_of_string? {cs value rest : List Char} {kind : Kind}
    (h : string? cs = some (kind, value, rest)) : kind = .string := by
  simp only [string?, Option.bind_eq_bind, Option.bind_eq_some_iff] at h
  obtain ⟨_, _, _, _, h⟩ := h
  cases h
  rfl

theorem stops_of_name? {cs name rest : List Char} (h : name? cs = some (name, rest)) :
    Stops isNameChar rest := by
  unfold name? at h
  split at h
  · split at h
    · cases h
      exact stops_dropWhile _ _
    · cases h
  · cases h

theorem named?_of_append {cs tail value rest : List Char} {kind : Kind}
    (h : named? (cs ++ tail) = some (kind, value, rest ++ tail)) :
    IsName value ∧ ∃ after, cs = value ++ after ∧ named? cs = some (kind, value, rest) := by
  simp only [named?, Option.bind_eq_bind, Option.bind_eq_some_iff] at h ⊢
  obtain ⟨⟨name, more⟩, hname, h⟩ := h
  have hform := isName_of_name? hname
  have hstop := stops_of_name? hname
  have hcs := name?_append hname
  split at h
  · next rest' ha =>
    cases h
    have hmore : ['('] ++ rest ++ tail = more := by
      rw [List.append_assoc]
      exact append_of_after? ha
    rw [← hmore, ← List.append_assoc] at hcs
    obtain rfl := List.append_cancel_right hcs
    rw [← hmore] at hstop
    refine ⟨hform, _, rfl, ⟨_, _⟩, name?_of_isName hform hstop.of_append, ?_⟩
    simp [after?]
  · next ha =>
    simp only [pure, Option.some.injEq, Prod.mk.injEq] at h
    obtain ⟨rfl, rfl, rfl⟩ := h
    rw [← List.append_assoc] at hcs
    obtain rfl := List.append_cancel_right hcs
    refine ⟨hform, _, rfl, ⟨_, _⟩, name?_of_isName hform hstop.of_append, ?_⟩
    rw [after?_eq_none_of_append ha]
    rfl

theorem after?_of_mark? {cs value rest : List Char} (h : mark? cs = some (.bar, value, rest)) :
    after? ['|'] rest = none := by
  cases hbar : after? ['|'] rest with
  | none => rfl
  | some more =>
    obtain ⟨hne, rfl⟩ := cuts_of_mark? h
    obtain rfl : value = ['|'] := by
      have hm := formed_of_mark? h
      cases hm with
      | mark hm => simpa [marks] using hm
    have hdouble : mark? (lexeme .bar ['|'] ++ rest) = some (.doubleBar, ['|', '|'], more) := by
      rw [← append_of_after? hbar]
      rfl
    rw [hdouble] at h
    cases h

/-- The token at the head of a text is there as well when the text ends anywhere behind it. -/
theorem next?_of_append {cs tail value rest : List Char} {kind : Kind}
    (h : next? (cs ++ tail) = some (kind, value, rest ++ tail)) :
    next? cs = some (kind, value, rest) := by
  have hcs : cs = lexeme kind value ++ rest := by
    have hcuts := (cuts_of_next? h).2
    rw [← List.append_assoc] at hcuts
    exact (List.append_cancel_right hcuts).symm
  simp only [next?, Option.orElse_eq_orElse, Option.orElse_eq_or, Option.or_eq_some_iff] at h
  rcases h with h | ⟨_, h | ⟨_, h | ⟨_, h | ⟨_, h⟩⟩⟩⟩
  · obtain rfl := kind_of_reference? h
    rw [hcs]
    exact next?_of_formed (formed_of_reference? h) (by rintro ⟨⟩)
  · obtain rfl := kind_of_string? h
    rw [hcs]
    exact next?_of_formed (formed_of_string? h) (by rintro ⟨⟩)
  · obtain ⟨rfl, hform⟩ := isNumber_of_number? h
    have hnumber := number?_of_append h
    rw [hcs] at hnumber ⊢
    exact next?_of_isNumber hform hnumber
  · obtain ⟨hform, after, rfl, hnamed⟩ := named?_of_append h
    exact next?_of_isName hform hnamed
  · obtain ⟨m, hm, hfind⟩ := List.exists_of_findSome?_eq_some h
    obtain ⟨_, _, hmatch⟩ := Option.map_eq_some_iff.mp hfind
    cases hmatch
    rw [hcs, (mark_ne_nil m hm).2]
    refine next?_of_mark hm fun hbar => ?_
    rw [hbar] at h
    exact after?_eq_none_of_append (after?_of_mark? h)

end Token

end ValueSyntax
