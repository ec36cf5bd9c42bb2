import Mathlib.Data.List.TakeWhile
import ValueSyntax.Proofs.Tree.Following

namespace ValueSyntax

open ValueSyntax.Tree

namespace Walk

/-- From one position the walk comes to another one, not behind `stop`. -/
def EndsBy {α : Type} (stop pos : Nat) (x : Walk α) : Prop :=
  ∃ r pos', x.outcome pos = some (r, pos') ∧ pos ≤ pos' ∧ pos' ≤ stop

/-- The walk ends, and further on if it reads anything. -/
def Advances {α : Type} (stop pos : Nat) (x : Walk α) : Prop :=
  ∃ r pos', x.outcome pos = some (r, pos') ∧ pos ≤ pos' ∧ pos' ≤ stop ∧
    ∀ a, r = .ok a → pos < pos'

section Advances

variable {α β : Type} {x y : Walk α} {stop pos pos₁ : Nat}

theorem EndsBy.pure (h : pos ≤ stop) (a : α) : EndsBy stop pos (Pure.pure a) :=
  ⟨_, pos, outcome_pure a pos, Nat.le_refl _, h⟩

theorem Advances.endsBy (h : Advances stop pos x) : EndsBy stop pos x := by
  obtain ⟨r, pos', h, hle, hend, -⟩ := h
  exact ⟨r, pos', h, hle, hend⟩

theorem Advances.of_fault {f : Fault} (h : x.outcome pos = some (.error f, pos))
    (hend : pos ≤ stop) : Advances stop pos x :=
  ⟨_, pos, h, Nat.le_refl _, hend, nofun⟩

theorem Advances.of_outcome (heq : x.outcome pos = y.outcome pos₁) (hle : pos ≤ pos₁)
    (h : Advances stop pos₁ y) : Advances stop pos x := by
  obtain ⟨r, pos', h, hle', hend, hread⟩ := h
  exact ⟨r, pos', heq.trans h, hle.trans hle', hend, fun a ha => hle.trans_lt (hread a ha)⟩

theorem Advances.bind (h : Advances stop pos x) {f : α → Walk β}
    (hf : ∀ a pos', pos < pos' → pos' ≤ stop → EndsBy stop pos' (f a)) :
    Advances stop pos (x >>= f) := by
  obtain ⟨r, pos₁, h, hle, hend, hread⟩ := h
  cases r with
  | error fault => exact ⟨_, pos₁, outcome_bind_of_error h f, hle, hend, nofun⟩
  | ok a =>
    have hlt := hread a rfl
    obtain ⟨r, pos', hfa, hle', hend'⟩ := hf a pos₁ hlt hend
    have hlt' := hlt.trans_le hle'
    exact ⟨r, pos', (outcome_bind_of_ok h f).trans hfa, hlt'.le, hend', fun _ _ => hlt'⟩

end Advances

end Walk

open Walk

section Advancing

variable {tokens front : List Token} {stop : Token} {pos : Nat}

theorem Stands.of_le (h : pos ≤ front.length) : Stands front pos (front.drop pos) := ⟨h, rfl⟩

theorem Leads.advances {α : Type} {ts : List Token} {x : Walk α} {y : Except Fault (Shorter α ts)}
    (hs : Stands front pos ts) (h : Leads front pos Pure.pure x y) :
    Advances front.length pos x := by
  cases h with
  | fault hle hend h => exact ⟨_, _, h, hle, hend, nofun⟩
  | @read a rest hlt pos' hle hs' h =>
    have hlt : rest.length < ts.length := hlt
    have hlength := hs.length_add
    have hlength' := hs'.length_add
    exact ⟨_, _, h, hle, hs'.le, fun _ _ => by omega⟩

theorem term_advances (hu : UpToEnd tokens front stop) (hpos : pos ≤ front.length) :
    Advances front.length pos (Track.term tokens) :=
  (leads_term hu (.of_le hpos)).advances (.of_le hpos)

theorem outcome_multiplier_of_not (hu : UpToEnd tokens front stop) {ts : List Token}
    (hs : Stands front pos ts) {left : Tree} (h : (ts.headD stop).kind.isMultiplier = false) :
    (Track.multiplier tokens left).outcome pos =
      some (.error (misplaced (ts.headD stop)), pos) := by
  rw [Track.multiplier, Track.outcome_here_bind, hu.tokenAt_eq hs]
  split <;> simp_all [Token.Kind.isMultiplier]

theorem extended_advances (hu : UpToEnd tokens front stop) (hpos : pos ≤ front.length)
    (left : Tree) : Advances front.length pos (Track.extended tokens left) := by
  have hs := Stands.of_le hpos
  generalize front.drop pos = ts at hs
  cases hc : (ts.headD stop).kind.connective? with
  | some c =>
    have hgoesOn : c.next? ts ≠ none := by
      cases ts with
      | nil =>
        rw [List.headD_nil, hu.stop] at hc
        cases hc
      | cons t ts => exact fun hnone => Connective.next?_cons_eq_none.mp hnone hc
    obtain ⟨⟨⟨⟨⟩, ts₁⟩, hle⟩, hnext⟩ := Option.ne_none_iff_exists'.mp hgoesOn
    obtain ⟨-, pos₁, hle₁, hs₁, hmark⟩ := outcome_mark hu hs hnext
    have hright := ((leads_operand hu hs₁ (Nat.le_refl c.strength)).operand hu).advances hs₁
    refine .of_outcome (outcome_extended_of_connective hu hs hc) (Nat.le_refl _) ?_
    refine .of_outcome (outcome_bind_of_ok hmark _) hle₁ ?_
    exact hright.bind fun _ _ _ hend => .pure hend _
  | none =>
    by_cases hm : (ts.headD stop).kind.isMultiplier
    · obtain ⟨y, -, hleads⟩ := leads_multiplier hu hs left hm
      exact .of_outcome (outcome_extended_of_multiplier hu hs hm) (Nat.le_refl _)
        ((hleads.advances hs).bind fun _ _ _ hend => .pure hend _)
    · refine .of_fault (f := misplaced (ts.headD stop)) ?_ hpos
      rw [Track.extended, Track.outcome_here_bind, hu.tokenAt_eq hs, hc]
      exact outcome_bind_of_error (outcome_multiplier_of_not hu hs (by simpa using hm)) _

theorem onward_ends (hu : UpToEnd tokens front stop) {pos : Nat} (hpos : pos ≤ front.length)
    (strength : Nat) (left : Tree) :
    EndsBy front.length pos (Track.onward tokens strength left) := by
  have hs := Stands.of_le hpos
  -- Either nothing at hand binds tighter, or something is read and less is left before the mark.
  by_cases hlt : strength < ((front.drop pos).headD stop).kind.strength
  · have hadvances := (extended_advances hu hpos left).bind (f := Track.onward tokens strength)
      fun left pos' hlt hle => onward_ends hu hle strength left
    exact (Advances.of_outcome (outcome_onward_of_lt hu hs hlt) (Nat.le_refl _) hadvances).endsBy
  · exact ⟨_, pos, outcome_onward_of_le hu hs (Nat.not_lt.mp hlt), Nat.le_refl _, hpos⟩
termination_by front.length - pos

theorem phrase_advances (hu : UpToEnd tokens front stop) (hpos : pos ≤ front.length)
    (strength : Nat) : Advances front.length pos (Track.phrase tokens strength) := by
  rw [Track.phrase]
  exact (term_advances hu hpos).bind fun first pos' _ hle => onward_ends hu hle strength first

end Advancing

section Definitions

variable {tokens front : List Token} {stop : Token}

theorem UpToEnd.ne_nil (hu : UpToEnd tokens front stop) : tokens ≠ [] :=
  List.ne_nil_of_length_pos (Nat.zero_lt_of_lt hu.length_lt)

theorem UpToEnd.takeWhile_eq (hu : UpToEnd tokens front stop) :
    tokens.takeWhile (·.kind ≠ .endMark) = front := by
  obtain ⟨behind, rfl⟩ := hu.split
  rw [List.takeWhile_append_of_pos fun t ht => by simpa using hu.front t ht]
  simp [hu.stop]

theorem UpToEnd.find?_eq (hu : UpToEnd tokens front stop) :
    tokens.find? (·.kind = .endMark) = some stop := by
  obtain ⟨behind, rfl⟩ := hu.split
  have hnone : front.find? (·.kind = .endMark) = none :=
    List.find?_eq_none.mpr fun t ht => by simpa using hu.front t ht
  simp [hnone, hu.stop]

/-- The whole walk comes to what the parser does. -/
theorem outcome_definition (hu : UpToEnd tokens front stop) :
    ∃ pos ≤ front.length, (Track.definition tokens).outcome 0 = some (ofTokens tokens, pos) := by
  have hs : Stands front 0 front := ⟨Nat.zero_le _, rfl⟩
  rw [ofTokens, hu.find?_eq, hu.takeWhile_eq, Track.definition, Track.outcome_here_bind,
    hu.tokenAt_eq hs]
  dsimp only [Option.getD_some]
  cases front with
  | nil =>
    rw [List.headD_nil, if_pos (Or.inr hu.stop), if_pos rfl]
    exact ⟨0, Nat.le_refl _, rfl⟩
  | cons t ts =>
    rw [List.headD_cons, if_neg (not_or.mpr ⟨hu.ne_nil, hu.ne_endMark hs⟩),
      if_neg (List.cons_ne_nil _ _)]
    have hwhole := (leads_level (c := .oneOf) hu hs Nat.one_pos).whole hu
    refine (hwhole.bind_pure _).elim (fun _ hend h => ⟨_, hend, h⟩)
      fun {tree rest _ pos} _ _ hs h => ?_
    -- The definition has been read, and either the end mark stands here or something is left over.
    refine ⟨pos, hs.le, h.trans ?_⟩
    rw [Track.outcome_here_bind, hu.tokenAt_eq hs]
    cases rest with
    | nil =>
      rw [List.headD_nil, if_pos hu.stop]
      rfl
    | cons u rest =>
      rw [List.headD_cons, if_neg (hu.ne_endMark hs)]
      dsimp only [leftOver]
      split
      · rfl
      · rw [← hu.misplaced_eq hs]
        rfl

end Definitions

theorem exists_upToEnd {tokens : List Token} (h : ∃ t ∈ tokens, t.kind = .endMark) :
    ∃ stop, UpToEnd tokens (tokens.take (tokens.findIdx (·.kind = .endMark))) stop := by
  have hlt : tokens.findIdx (·.kind = .endMark) < tokens.length :=
    List.findIdx_lt_length.mpr (by simpa using h)
  refine ⟨tokens[tokens.findIdx (·.kind = .endMark)], ⟨?_, ?_, ?_⟩⟩
  · refine ⟨tokens.drop (tokens.findIdx (·.kind = .endMark) + 1), ?_⟩
    rw [← List.drop_eq_getElem_cons hlt, List.take_append_drop]
  · intro t ht
    obtain ⟨i, hi, rfl⟩ := List.mem_take_iff_getElem.mp ht
    simpa using List.not_of_lt_findIdx (lt_of_lt_of_le hi (Nat.min_le_left _ _))
  · simpa using List.findIdx_getElem (w := hlt)

theorem UpToEnd.of_take_eq {tokens tokens' front : List Token} {stop : Token}
    (hu : UpToEnd tokens front stop)
    (h : tokens'.take (front.length + 1) = tokens.take (front.length + 1)) :
    UpToEnd tokens' front stop := by
  obtain ⟨behind, rfl⟩ := hu.split
  have htake : (front ++ stop :: behind).take (front.length + 1) = front ++ [stop] :=
    List.take_length_add_append 1
  refine ⟨⟨tokens'.drop (front.length + 1), ?_⟩, hu.front, hu.stop⟩
  calc
    tokens' = tokens'.take (front.length + 1) ++ tokens'.drop (front.length + 1) :=
      (List.take_append_drop _ _).symm
    _ = front ++ stop :: tokens'.drop (front.length + 1) := by
      rw [h, htake, List.append_assoc, List.singleton_append]

/-- A walk over tokens with an end mark ends, with the outcome of the parser. Wherever it is up to
the first end mark, reading a term, what follows an operand, or a phrase takes it further, but never
behind that mark. So all tokens that agree up to the first end mark have the same outcome. -/
theorem walk_ends_at_endMark {tokens : List Token} (h : ∃ t ∈ tokens, t.kind = .endMark) :
    let stop := tokens.findIdx (·.kind = .endMark)
    (∃ pos ≤ stop, (Track.definition tokens).outcome 0 = some (ofTokens tokens, pos)) ∧
    (∀ pos ≤ stop, Advances stop pos (Track.term tokens) ∧
      (∀ left, Advances stop pos (Track.extended tokens left)) ∧
      ∀ strength, Advances stop pos (Track.phrase tokens strength)) ∧
    ∀ tokens', tokens'.take (stop + 1) = tokens.take (stop + 1) →
      ofTokens tokens' = ofTokens tokens ∧
        ∃ pos ≤ stop, (Track.definition tokens').outcome 0 = some (ofTokens tokens, pos) := by
  intro stop
  obtain ⟨mark, hu⟩ := exists_upToEnd h
  have hlength : (tokens.take stop).length = stop :=
    List.length_take_of_le (List.findIdx_le_length)
  rw [← hlength]
  refine ⟨outcome_definition hu, fun pos hpos => ?_, fun tokens' htake => ?_⟩
  · exact ⟨term_advances hu hpos, extended_advances hu hpos, phrase_advances hu hpos⟩
  · have hu' : UpToEnd tokens' (tokens.take stop) mark := hu.of_take_eq htake
    have hsame : ofTokens tokens' = ofTokens tokens := by
      rw [ofTokens, ofTokens, hu.find?_eq, hu'.find?_eq, hu.takeWhile_eq, hu'.takeWhile_eq]
    exact ⟨hsame, hsame ▸ outcome_definition hu'⟩

/-- `a | [ b ]!` with more tokens behind the first end mark, and with none. -/
theorem walk_ends_at_endMark_on_group :
    let front : List Token := [⟨.identifier, "a", 0, 1⟩, ⟨.bar, "|", 2, 3⟩,
      ⟨.openBracket, "[", 4, 5⟩, ⟨.identifier, "b", 6, 7⟩, ⟨.closeBracket, "]", 8, 9⟩,
      ⟨.exclamation, "!", 9, 10⟩, .endAt 10]
    let t : Tree := .joined .oneOf [.keyword "a",
      .multiplied (.group (.keyword "b") true) ⟨1, some 1, .space⟩]
    (∃ tok ∈ front ++ [⟨.bar, "|", 10, 11⟩, .endAt 11], tok.kind = .endMark) ∧
      ofTokens (front ++ [⟨.bar, "|", 10, 11⟩, .endAt 11]) = .ok t ∧
      ∃ pos ≤ 6, (Track.definition front).outcome 0 = some (.ok t, pos) := by
  intro front t
  have hend : ∃ tok ∈ front ++ [⟨.bar, "|", 10, 11⟩, .endAt 11], tok.kind = .endMark :=
    ⟨.endAt 10, by simp [front], rfl⟩
  have htokens : ofTokens (front ++ [⟨.bar, "|", 10, 11⟩, .endAt 11]) = .ok t := by cbv
  obtain ⟨-, -, hagree⟩ := walk_ends_at_endMark hend
  have hagrees := (hagree front rfl).2
  rw [htokens] at hagrees
  exact ⟨hend, htokens, hagrees⟩

end ValueSyntax
