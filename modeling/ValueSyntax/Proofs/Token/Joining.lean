import ValueSyntax.Proofs.Token.Layout

namespace ValueSyntax

namespace Text

theorem Stops.append {p : Char → Bool} {cs : List Char} (h : Stops p cs) (hne : cs ≠ [])
    (tail : List Char) : Stops p (cs ++ tail) := by
  obtain ⟨c, cs, rfl⟩ := List.exists_cons_of_ne_nil hne
  exact stops_cons.mpr (stops_cons.mp h)

theorem after?_eq_some_append {text cs rest : List Char} (h : after? text cs = some rest)
    (tail : List Char) : after? text (cs ++ tail) = some (rest ++ tail) := by
  rw [← append_of_after? h, List.append_assoc, after?_append]

theorem after?_eq_none_append {c : Char} {cs : List Char} (h : after? [c] cs = none)
    (hne : cs ≠ []) (tail : List Char) : after? [c] (cs ++ tail) = none := by
  obtain ⟨d, cs, rfl⟩ := List.exists_cons_of_ne_nil hne
  exact after?_eq_none fun hd => by simp [after?, hd] at h

end Text

namespace Token

open Text

/-- A rule that leaves some of a text over cuts off the same part when the text goes on. -/
def Steady (cut : List Char → List Char × List Char) : Prop :=
  ∀ cs tail part rest, rest ≠ [] → cut cs = (part, rest) → cut (cs ++ tail) = (part, rest ++ tail)

theorem steady_run (p : Char → Bool) : Steady fun cs => (cs.takeWhile p, cs.dropWhile p) := by
  intro cs tail part rest hne h
  obtain ⟨run, more, rfl, hrun, hmore⟩ := exists_run p cs
  dsimp only at h ⊢
  rw [takeWhile_run hrun hmore, dropWhile_run hrun hmore, Prod.mk.injEq] at h
  obtain ⟨rfl, rfl⟩ := h
  have hmore := hmore.append hne tail
  rw [List.append_assoc, takeWhile_run hrun hmore, dropWhile_run hrun hmore]

theorem steady_sign : Steady sign := by
  intro cs tail part rest hne h
  unfold sign at h ⊢
  split at h
  · next ha =>
    cases h
    rw [after?_eq_some_append ha]
  · next ha =>
    cases h
    rw [after?_eq_none_append ha hne]

theorem steady_unit : Steady unit := by
  intro cs tail part rest hne h
  unfold unit at h ⊢
  split at h
  · next ha =>
    cases h
    rw [after?_eq_some_append ha]
  · next ha =>
    have hcs : cs ≠ [] := by
      rintro rfl
      cases h
      exact hne rfl
    rw [after?_eq_none_append ha hcs]
    exact steady_run Char.isAlpha cs tail part rest hne h

/-- A point at the end of a text becomes a part of a number when a digit comes behind it. -/
theorem fraction?_steady {cs part rest : List Char} (hne : rest ≠ [])
    (hpoint : Stops (· = '.') rest) (h : (fraction? cs).getD ([], cs) = (part, rest))
    (tail : List Char) :
    (fraction? (cs ++ tail)).getD ([], cs ++ tail) = (part, rest ++ tail) := by
  cases hf : fraction? cs with
  | some r =>
    rw [hf, Option.getD_some] at h
    subst h
    obtain ⟨digits, ha, rfl, hdigits, hall, hstop⟩ := fraction?_eq_some.mp hf
    have ha : after? ['.'] (cs ++ tail) = some (digits ++ (rest ++ tail)) := by
      rw [after?_eq_some_append ha, List.append_assoc]
    rw [fraction?_eq_some.mpr ⟨digits, ha, rfl, hdigits, hall, hstop.append hne tail⟩]
    rfl
  | none =>
    rw [hf, Option.getD_none] at h
    cases h
    have ha : after? ['.'] (cs ++ tail) = none :=
      (hpoint.append hne tail).after?_eq_none (by decide)
    have hf : fraction? (cs ++ tail) = none := by simp [fraction?, ha]
    rw [hf]
    rfl

theorem number?_steady {cs value rest : List Char} {kind : Kind} (hne : rest ≠ [])
    (hpoint : Stops (· = '.') rest) (h : number? cs = some (kind, value, rest))
    (tail : List Char) : number? (cs ++ tail) = some (kind, value, rest ++ tail) := by
  obtain ⟨signed, digits, point, letters, cs₁, cs₂, cs₃, rfl, rfl, hs, hd, hdigits, hf, hu⟩ :=
    number?_eq_some.mp h
  -- No part uses the text up, for something is left over at last.
  have hne₃ : cs₃ ≠ [] := by
    rintro rfl
    cases hu
    exact hne rfl
  have hne₂ : cs₂ ≠ [] := by
    rintro rfl
    cases hf
    exact hne₃ rfl
  have hne₁ : cs₁ ≠ [] := by
    rintro rfl
    cases hd
    exact hne₂ rfl
  have hpoint₃ : Stops (· = '.') cs₃ := by
    match cs₃ with
    | [] => exact stops_nil _
    | c :: more =>
      rw [stops_cons, decide_eq_false_iff_not]
      rintro rfl
      cases hu
      exact absurd (stops_cons.mp hpoint) (by decide)
  exact number?_eq_some.mpr ⟨signed, digits, point, letters, _, _, _, rfl, rfl,
    steady_sign _ tail _ _ hne₁ hs, steady_run _ _ tail _ _ hne₂ hd, hdigits,
    fraction?_steady hne₃ hpoint₃ hf tail, steady_unit _ tail _ _ hne hu⟩

theorem named?_steady {cs value rest : List Char} {kind : Kind} (hne : rest ≠ [])
    (h : named? cs = some (kind, value, rest)) (tail : List Char) :
    IsName value ∧ ∃ after, cs = value ++ after ∧
      named? (cs ++ tail) = some (kind, value, rest ++ tail) := by
  simp only [named?, Option.bind_eq_bind, Option.bind_eq_some_iff] at h ⊢
  obtain ⟨⟨name, more⟩, hname, h⟩ := h
  have hform := isName_of_name? hname
  have hmore : more ≠ [] := by
    rintro rfl
    cases h
    exact hne rfl
  have hlong : name? (name ++ (more ++ tail)) = some (name, more ++ tail) :=
    name?_of_isName hform ((stops_of_name? hname).append hmore tail)
  rw [← name?_append hname, List.append_assoc]
  split at h
  · next ha =>
    cases h
    refine ⟨hform, more, rfl, _, hlong, ?_⟩
    simp [after?_eq_some_append ha]
  · next ha =>
    cases h
    refine ⟨hform, more, rfl, _, hlong, ?_⟩
    simp [after?_eq_none_append ha hmore]

/-- The token at the head of a text is there as well when the text goes on, if something other than
a point is left over behind it. -/
theorem next?_steady {cs value rest : List Char} {kind : Kind} (hne : rest ≠ [])
    (hpoint : Stops (· = '.') rest) (h : next? cs = some (kind, value, rest)) (tail : List Char) :
    next? (cs ++ tail) = some (kind, value, rest ++ tail) := by
  have hcs : cs ++ tail = lexeme kind value ++ (rest ++ tail) := by
    rw [← (cuts_of_next? h).2, List.append_assoc]
  simp only [next?, Option.orElse_eq_orElse, Option.orElse_eq_or, Option.or_eq_some_iff] at h
  rcases h with h | ⟨_, h | ⟨_, h | ⟨_, h | ⟨_, h⟩⟩⟩⟩
  · obtain rfl := kind_of_reference? h
    rw [hcs]
    exact next?_of_formed (formed_of_reference? h) (by rintro ⟨⟩)
  · obtain rfl := kind_of_string? h
    rw [hcs]
    exact next?_of_formed (formed_of_string? h) (by rintro ⟨⟩)
  · obtain ⟨rfl, hform⟩ := isNumber_of_number? h
    have hnumber := number?_steady hne hpoint h tail
    rw [hcs] at hnumber ⊢
    exact next?_of_isNumber hform hnumber
  · obtain ⟨hform, after, rfl, hnamed⟩ := named?_steady hne h tail
    rw [List.append_assoc] at hnamed ⊢
    exact next?_of_isName hform hnamed
  · obtain ⟨m, hm, hfind⟩ := List.exists_of_findSome?_eq_some h
    obtain ⟨_, _, hmatch⟩ := Option.map_eq_some_iff.mp hfind
    cases hmatch
    rw [hcs, (mark_ne_nil m hm).2]
    refine next?_of_mark hm fun hbar => ?_
    rw [hbar] at h
    exact after?_eq_none_append (after?_of_mark? h) hne tail

namespace Scans

variable {cs tail : List Char} {keys more : List (Kind × List Char)}

theorem stops_point (h : Scans cs keys) : Stops (· = '.') cs := by
  have hnone : ∀ more, next? ('.' :: more) = none := by
    intro more
    rw [next?, reference?_eq_none (by decide), string?_eq_none (by decide),
      number?_eq_none (by decide) (by decide), named?_eq_none (by decide)]
    simp [mark?, marks, after?]
  cases cs with
  | nil => exact stops_nil _
  | cons c cs =>
    rw [stops_cons, decide_eq_false_iff_not]
    rintro rfl
    generalize hcs : '.' :: cs = all at h
    cases h with
    | done => cases hcs
    | blank h =>
      cases hcs
      exact absurd h (by decide)
    | token h =>
      rw [← hcs, hnone] at h
      cases h

theorem eq_nil (h : Scans [] keys) : keys = [] := by
  generalize hcs : [] = cs at h
  cases h with
  | done => rfl
  | blank => cases hcs
  | token h =>
    have hne := (cuts_of_next? h).1
    simp [hne] at hcs

theorem append (h : Scans cs keys) (htail : Scans tail more)
    (hseam : ∀ last ∈ keys.getLast?, last.1.isOpen → Stops sticks tail) :
    Scans (cs ++ tail) (keys ++ more) := by
  induction h with
  | done => exact htail
  | blank h _ ih => exact .blank h (ih hseam)
  | @token kind value rest keys h hrest ih =>
    rw [List.append_assoc, List.cons_append]
    refine .token ?_ (ih fun last hlast => hseam last ?_)
    · -- Only the token at the seam looks at what comes behind the text.
      match rest with
      | [] =>
        obtain rfl := hrest.eq_nil
        exact next?_of_formed (formed_of_next? h) (hseam (kind, value) rfl)
      | c :: rest =>
        have hlong := next?_steady (List.cons_ne_nil c rest) hrest.stops_point h tail
        rwa [List.append_assoc] at hlong
    · rw [List.getLast?_cons, Option.mem_def.mp hlast]
      rfl

theorem of_scanFrom {offset : Nat} {tokens : List Token} (h : scanFrom offset cs = .ok tokens) :
    Scans cs ((withoutEnd tokens).map key) := by
  induction offset, cs using scanFrom_induction generalizing tokens with
  | done offset =>
    rw [scanFrom_eq] at h
    cases h
    exact .done
  | blank offset c cs hblank ih =>
    rw [scanFrom_blank offset cs hblank] at h
    exact .blank hblank (ih h)
  | unread offset c cs hblank hnext =>
    rw [scanFrom_cons offset cs hblank, hnext] at h
    cases h
  | token offset c cs kind value rest hblank hnext ih =>
    rw [scanFrom_cons offset cs hblank, hnext] at h
    simp only [scanAfter, Except.map] at h
    split at h
    · cases h
    · next hrest =>
      cases h
      have hkind : kind ≠ .endMark := (formed_of_next? hnext).ne_endMark
      have hcs := (cuts_of_next? hnext).2
      rw [← hcs] at hnext ⊢
      have hkeys := Scans.token hnext (ih hrest)
      simpa [withoutEnd, hkind, key] using hkeys

theorem of_scan {text : String} {tokens : List Token} {stop : Nat}
    (h : scan text = .ok (tokens ++ [endAt stop])) : Scans text.toList (tokens.map key) := by
  have hend := eq_withoutEnd_append h
  rw [List.append_inj_left' hend rfl]
  exact of_scanFrom h

end Scans

end Token

end ValueSyntax
