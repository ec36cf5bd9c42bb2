import ValueSyntax.Proofs.Tree.Shortest
import ValueSyntax.Proofs.Tree.Walk

namespace ValueSyntax

variable {c : Connective} {t : Token} {rest : List Token}

namespace Connective

theorem strength_add_looseness (c : Connective) : c.strength + c.looseness = 4 := by
  cases c <;> rfl

theorem looseness_injective : Function.Injective looseness := by
  intro c d h
  cases c <;> cases d <;> first | rfl | cases h

theorem connective?_eq_some_iff {kind : Token.Kind} :
    kind.connective? = some c ↔ c.kind? = some kind ∨ (c.kind? = none ∧ kind.startsTerm) := by
  cases c <;> cases kind <;> decide

theorem next?_cons_eq_none : c.next? (t :: rest) = none ↔ t.kind.connective? ≠ some c := by
  rw [ne_eq, connective?_eq_some_iff, next?]
  cases c.kind? with
  | none => simp
  | some kind =>
    by_cases hkind : t.kind = kind
    · simp [hkind]
    · simp [hkind, Ne.symm hkind]

end Connective

namespace Token.Kind

variable {kind : Kind}

theorem connective?_of_isMultiplier (h : kind.isMultiplier) : kind.connective? = none := by
  cases kind <;> first | rfl | cases h

theorem strength_of_isMultiplier (h : kind.isMultiplier) : kind.strength = 5 := by
  rw [strength, connective?_of_isMultiplier h]
  exact if_pos h

theorem strength_of_connective? (h : kind.connective? = some c) : kind.strength = c.strength := by
  rw [strength, h]

theorem strength_endMark : strength .endMark = 0 := rfl

end Token.Kind

namespace Tree

theorem EndsOperand.strength_le (h : EndsOperand c (t :: rest)) : t.kind.strength ≤ c.strength := by
  obtain ⟨hmultiplier, htighter⟩ := h
  unfold Token.Kind.strength
  split
  · next d hd =>
    by_contra hlt
    have hc := c.strength_add_looseness
    have hd' := d.strength_add_looseness
    exact Connective.next?_cons_eq_none.mp (htighter d (by omega)) hd
  · rw [hmultiplier t rfl]
    exact Nat.zero_le _

theorem Ends.strength_lt (h : Ends c (t :: rest)) : t.kind.strength < c.strength := by
  refine Nat.lt_of_le_of_ne h.1.strength_le fun heq => ?_
  refine Connective.next?_cons_eq_none.mp h.2 ?_
  unfold Token.Kind.strength at heq
  split at heq
  · next d hd =>
    have hc := c.strength_add_looseness
    have hd' := d.strength_add_looseness
    have hcd : d.looseness = c.looseness := by omega
    rw [hd, Connective.looseness_injective hcd]
  · rw [h.1.1 t rfl] at heq
    cases c <;> cases heq

theorem Ends.endsOperand {d : Connective} (h : Ends d rest) (hc : c.looseness = d.looseness + 1) :
    EndsOperand c rest := by
  refine ⟨h.1.1, fun e he => ?_⟩
  rcases Nat.lt_succ_iff_lt_or_eq.mp (hc ▸ he) with hlt | heq
  · exact h.1.2 e hlt
  · rw [Connective.looseness_injective heq]
    exact h.2

section Ends

variable {last : Token}

theorem EndsOperand.of_multipliedBy {ts : List Token} {inner u : Tree}
    (h : Reads (multipliedBy last inner ts) u rest) : EndsOperand .juxtaposition rest := by
  rcases reads_multipliedBy.mp h with ⟨hnone, -, rfl⟩ | ⟨m, ts₁, hfinds, h⟩
  · exact ⟨multiplier?_eq_none.mp hnone, fun d hd => absurd hd (Nat.not_lt_zero _)⟩
  · have hlt := hfinds.length_lt
    exact EndsOperand.of_multipliedBy h
termination_by ts.length

theorem Ends.of_others (hoperand : ∀ {ts rest : List Token} {u : Tree},
      Reads (operand last c ts) u rest → EndsOperand c rest)
    {ts : List Token} {more : List Tree} (h : Reads (others last c ts) more rest)
    (hts : EndsOperand c ts) : Ends c rest := by
  rcases reads_others.mp h with ⟨hnext, -, rfl⟩ | ⟨ts₁, u, ts₂, more', ⟨hle, -⟩, h₁, h₂, -⟩
  · exact ⟨hts, hnext⟩
  · have hle : ts₁.length ≤ ts.length := hle
    have hlt := h₁.length_lt
    exact Ends.of_others hoperand h₂ (hoperand h₁)
termination_by ts.length

theorem Ends.of_level (hoperand : ∀ {ts rest : List Token} {u : Tree},
      Reads (operand last c ts) u rest → EndsOperand c rest)
    {ts : List Token} {u : Tree} (h : Reads (level last c ts) u rest) : Ends c rest := by
  obtain ⟨first, ts₁, more, h₁, h₂, -⟩ := reads_level.mp h
  exact .of_others hoperand h₂ (hoperand h₁)

theorem EndsOperand.of_juxtaposed {ts rest : List Token} {u : Tree}
    (h : Reads (operand last .juxtaposition ts) u rest) : EndsOperand .juxtaposition rest := by
  obtain ⟨inner, ts₁, -, h⟩ := reads_juxtaposed.mp h
  exact .of_multipliedBy h

theorem EndsOperand.of_allRequired {ts rest : List Token} {u : Tree}
    (h : Reads (operand last .allRequired ts) u rest) : EndsOperand .allRequired rest := by
  rw [operand] at h
  exact (Ends.of_level of_juxtaposed h).endsOperand rfl

theorem EndsOperand.of_anyOrder {ts rest : List Token} {u : Tree}
    (h : Reads (operand last .anyOrder ts) u rest) : EndsOperand .anyOrder rest := by
  rw [operand] at h
  exact (Ends.of_level of_allRequired h).endsOperand rfl

theorem EndsOperand.of_operand {ts : List Token} {u : Tree} (h : Reads (operand last c ts) u rest) :
    EndsOperand c rest := by
  cases c with
  | oneOf =>
    rw [operand] at h
    exact (Ends.of_level of_anyOrder h).endsOperand rfl
  | anyOrder => exact of_anyOrder h
  | allRequired => exact of_allRequired h
  | juxtaposition => exact of_juxtaposed h

end Ends

/-- An operand is not joined by the connective that it belongs to, nor by a looser one. -/
theorem Derives.ne_joined {phrase : Phrase} {ts : List Token} {t : Tree} (h : Derives phrase ts t)
    {c : Connective} (hc : ∀ d, phrase = .level d → d.looseness < c.looseness)
    (operands : List Tree) : t ≠ .joined c operands := by
  induction h with
  | leaf h =>
    rintro rfl
    exact Bool.noConfusion (isAtom_of_ofLeaf? h)
  | brackets => exact nofun
  | parentheses => exact nofun
  | emptyFunction => exact nofun
  | function => exact nofun
  | once _ ih => exact ih nofun
  | multiplied => exact nofun
  | @single d _ _ _ ih =>
    refine ih fun e he => Nat.lt_trans ?_ (hc d rfl)
    cases d <;> cases he <;> decide
  | joined =>
    intro heq
    cases heq
    exact Nat.lt_irrefl _ (hc _ rfl)

theorem addOperand_joined (c : Connective) (operands : List Tree) (t : Tree) :
    addOperand c (joined c operands) t = joined c (operands ++ [t]) := if_pos rfl

theorem addOperand_of_ne {left : Tree} (h : ∀ operands, left ≠ joined c operands) (t : Tree) :
    addOperand c left t = joined c [left, t] := by
  unfold addOperand
  split
  · next d operands =>
    refine if_neg ?_
    rintro rfl
    exact h operands rfl
  · rfl

theorem foldl_addOperand_joined (operands more : List Tree) :
    more.foldl (addOperand c) (joined c operands) = joined c (operands ++ more) := by
  induction more generalizing operands with
  | nil => simp
  | cons t more ih => simp [addOperand_joined, ih]

/-- One operand after the other makes the same tree as all operands at once. -/
theorem foldl_addOperand {first : Tree} (h : ∀ operands, first ≠ joined c operands)
    (more : List Tree) : more.foldl (addOperand c) first = c.join first more := by
  cases more with
  | nil => rfl
  | cons t more => simp [addOperand_of_ne h, foldl_addOperand_joined, Connective.join]

end Tree

end ValueSyntax
