import ValueSyntax.Proofs.Resolve.History

namespace ValueSyntax

open Ascending Shapes

/-- The connectives whose operands come in any order. -/
def Connective.AnyOrder (c : Connective) : Prop := c = .anyOrder ∨ c = .allRequired

/-- The shapes of operands in any order, in closed form: of any of them, at least one, and of all
of them. -/
structure ClosedForm (parts : List Shapes) (anyOf allOf : Shapes) : Prop where
  mem_anyOf : ∀ x, x ∈ anyOf ↔ (∃ part ∈ parts, x ∈ part) ∨ (x = .anyString ∧ 2 ≤ parts.length)
  allOf_single : ∀ part, parts = [part] → allOf = part
  allOf_several : 2 ≤ parts.length → allOf = any

theorem closedForm {parts : List Shapes} (h : parts.length ≤ operandCeiling) :
    ClosedForm parts (inAnyOrder parts) (allInAnyOrder parts) where
  mem_anyOf _ := mem_inAnyOrder (Nat.lt_of_le_of_lt h (by decide))
  allOf_single := by
    rintro part rfl
    exact ext_mem fun _ => allInAnyOrder_singleton part
  allOf_several h := ext_mem fun _ => by rw [mem_allInAnyOrder_of_two_le h, mem_any]

section Orders

variable {k : Catalog} {expand : String → String → Resolving Shapes} {referrer : String}
  {c : Connective} {operands : List Tree}

theorem Connective.AnyOrder.enumerates_iff {n : Nat} (hc : c.AnyOrder) :
    c.enumerates k n ↔ n ≤ k.settings.operandLimit := by
  rcases hc with rfl | rfl <;> simp [enumerates]

theorem Connective.AnyOrder.ne (hc : c.AnyOrder) : c ≠ .juxtaposition := by
  rcases hc with rfl | rfl <;> decide

namespace Tree

theorem ensures_length_shapesEach : ∀ (ts : List Tree) (s : Session),
    Ensures (shapesEach k expand referrer ts) s (fun parts _ => parts.length = ts.length)
      fun _ => True
  | [], _ => rfl
  | t :: ts, s => by
    rw [shapesEach, Ensures.bind_iff]
    refine .intro (fun first s₁ _ => ?_) fun _ _ _ => trivial
    rw [Ensures.bind_iff]
    exact (ensures_length_shapesEach ts s₁).imp fun _ _ h => congrArg (· + 1) h

/-- What is combined are the shapes of as many operands as there are, so of ten at most. -/
theorem shapes_eq_enumerated (hc : c.AnyOrder) {combine : List Shapes → Shapes}
    (h : ∀ parts, parts.length ≤ operandCeiling → combine parts = c.combine parts) :
    (joined c operands).shapes k expand referrer =
      enumerated k referrer c operands.length (shapesEach k expand referrer operands) combine := by
  have hshapes : (joined c operands).shapes k expand referrer = enumerated k referrer c
      operands.length (shapesEach k expand referrer operands) c.combine := by
    rcases hc with rfl | rfl <;> rw [shapes] <;> rfl
  rw [hshapes, enumerated_eq, enumerated_eq]
  split
  · rfl
  · split
    · next hle =>
      have hceiling := Nat.le_trans hle k.settings.operandLimit_le
      rw [map_eq_pure_bind, map_eq_pure_bind]
      funext s
      refine bind_eq_at rfl fun parts s' hparts => ?_
      have hlen := (ensures_length_shapesEach operands s).of_ok hparts
      rw [h parts (by omega)]
    · rfl

theorem shapes_of_enumerates (hc : c.AnyOrder) (hne : operands ≠ [])
    (hle : operands.length ≤ k.settings.operandLimit) :
    (joined c operands).shapes k expand referrer =
      c.combine <$> shapesEach k expand referrer operands := by
  rw [shapes_joined hc.ne, if_neg (mt List.length_eq_zero_iff.mp hne),
    if_pos (hc.enumerates_iff.mpr hle)]

theorem shapes_of_overflow (hc : c.AnyOrder) (h : k.settings.operandLimit < operands.length) :
    (joined c operands).shapes k expand referrer = widened
      (.tooManyOperands c.mark operands.length k.settings.operandLimit referrer) := by
  have hno : ¬ c.enumerates k operands.length := by
    rw [hc.enumerates_iff]
    omega
  rw [shapes_joined hc.ne, if_neg (by omega), if_neg hno]

end Tree

/-- A request can resolve the tree to the shapes, after some history. -/
def Tree.ResolvesTo (k : Catalog) (t : Tree) (shapes : Shapes) : Prop :=
  ∃ history referrer,
    Returns (t.shapes k (expandProperty k []) referrer) (k.sessionAfter history) shapes

theorem Tree.ResolvesTo.gathers {t : Tree} {shapes : Shapes} (h : t.ResolvesTo k shapes) :
    t.Supplied k ∧ Gathers k t (Approximates k ∅ ∅) shapes := by
  obtain ⟨history, referrer, s, h⟩ := h
  exact ((ensures_gathers t referrer (ready_sessionAfter k history).below).of_ok h).2

theorem suppliedEach_of_resolvesTo {parts : List Shapes}
    (h : List.Forall₂ (Tree.ResolvesTo k) operands parts) : Tree.SuppliedEach k operands := by
  induction h with
  | nil => trivial
  | cons h _ ih => exact ⟨h.gathers.1, ih⟩

theorem returns_of_gathers {t : Tree} {shapes : Shapes} {s : Session} (hs : s.Ready k)
    (hsupplied : t.Supplied k) (h : Gathers k t (Approximates k ∅ ∅) shapes) :
    Returns (t.shapes k (expandProperty k []) referrer) s shapes := by
  cases hx : t.shapes k (expandProperty k []) referrer s with
  | ok shapes' s' =>
    obtain ⟨-, -, h'⟩ := (ensures_gathers t referrer hs.below).of_ok hx
    exact ⟨s', h.unique h' ▸ hx⟩
  | error e s' =>
    have hends := ((Kept.lengths k s.lengths).treeShapes t referrer) s ⟨hs.midway, rfl⟩
    rcases (hends.of_error hx).2 with ⟨c, hlacks, -⟩ | ⟨name, hn, hfaults⟩
    · exact absurd hlacks hsupplied.not_lacks
    · exact absurd hfaults ((Settled.of_gathers h).not_faultsOf hn)

/-- After any history the tree is resolved to the shapes, and where a request for it is answered, the
answer gives them. -/
def Tree.ComesTo (k : Catalog) (t : Tree) (shapes : Shapes) : Prop :=
  ∀ history referrer,
    Returns (t.shapes k (expandProperty k []) referrer) (k.sessionAfter history) shapes ∧
    ∀ r, Returns (resolveTree k t referrer) (k.sessionAfter history) r →
      r.types = k.settings.finish shapes

theorem types_of_resolveTree {t : Tree} {shapes : Shapes} {s : Session} {r : Resolution}
    (h : Returns (t.shapes k (expandProperty k []) referrer) s shapes)
    (hr : Returns (resolveTree k t referrer) s r) : r.types = k.settings.finish shapes := by
  obtain ⟨s₁, h⟩ := h
  obtain ⟨s₂, hr⟩ := hr
  suffices Ensures (resolveTree k t referrer) s (fun r _ => r.types = k.settings.finish shapes)
    fun _ => True from this.of_ok hr
  rw [resolveTree, Ensures.bind_iff]
  refine .intro (fun shapes' s' h' => ?_) fun _ _ _ => trivial
  cases h.symm.trans h'
  rw [resolution, Ensures.bind_iff]
  exact .intro (fun _ _ _ => rfl) fun _ _ _ => trivial

/-- The operands may have been resolved at any time, each of them by itself. -/
theorem comesTo_joined (hc : c.AnyOrder) (hne : operands ≠ [])
    (hle : operands.length ≤ k.settings.operandLimit) {parts : List Shapes}
    (hparts : List.Forall₂ (Tree.ResolvesTo k) operands parts) :
    (Tree.joined c operands).ComesTo k (c.combine parts) := by
  have heach : Gathers.Each k (Approximates k ∅ ∅) operands parts :=
    hparts.imp fun _ _ h => h.gathers.2
  have hsupplied : (Tree.joined c operands).Supplied k := by
    rw [Tree.Supplied]
    exact ⟨fun h => absurd (List.isEmpty_iff.mp h) hne, fun _ => suppliedEach_of_resolvesTo hparts⟩
  intro history referrer
  have h := @returns_of_gathers _ referrer _ _ _ (ready_sessionAfter k history) hsupplied
    (.joined (hc.enumerates_iff.mpr hle) heach)
  exact ⟨h, fun _ => types_of_resolveTree h⟩

end Orders

open ValueSyntax.Tree in
/-- Up to the limit, enumerating the orders of operands comes to the closed form, from the shapes
that the operands have one after the other in any resolution, and from those that they have by
themselves after any histories. Above the limit no operand is looked at: the operands are just a
string, with one warning. No lookup of an operand is out of bounds, and above ten operands nothing
depends on what enumerating would give. -/
theorem orders_in_closed_form (k : Catalog) {operands : List Tree} (hne : operands ≠ []) :
    (operands.length ≤ k.settings.operandLimit →
      (∀ expand referrer s parts s', shapesEach k expand referrer operands s = .ok parts s' →
        ∃ anyOf allOf, ClosedForm parts anyOf allOf ∧
          (joined .anyOrder operands).shapes k expand referrer s = .ok anyOf s' ∧
          (joined .allRequired operands).shapes k expand referrer s = .ok allOf s') ∧
      ∀ parts, List.Forall₂ (ResolvesTo k) operands parts → ∃ anyOf allOf,
        ClosedForm parts anyOf allOf ∧ (joined .anyOrder operands).ComesTo k anyOf ∧
          (joined .allRequired operands).ComesTo k allOf) ∧
    (k.settings.operandLimit < operands.length → ∀ c : Connective, c.AnyOrder →
      ∀ expand referrer s, (joined c operands).shapes k expand referrer s =
        .ok any (s.warn (.tooManyOperands c.mark operands.length k.settings.operandLimit
          referrer))) ∧
    (∀ indices ∈ nonEmptySubsets operands.length ++ permutations operands.length,
      ∀ i ∈ indices, i < operands.length) ∧
    ∀ c : Connective, c.AnyOrder → ∀ combine : List Shapes → Shapes,
      (∀ parts, parts.length ≤ 10 → combine parts = c.combine parts) → ∀ expand referrer,
        (joined c operands).shapes k expand referrer = enumerated k referrer c operands.length
          (shapesEach k expand referrer operands) combine := by
  have hany : Connective.AnyOrder .anyOrder := Or.inl rfl
  have hall : Connective.AnyOrder .allRequired := Or.inr rfl
  refine ⟨fun hle => ?_, fun h c hc expand referrer s => ?_, fun indices h => ?_, ?_⟩
  · have hceiling := Nat.le_trans hle k.settings.operandLimit_le
    constructor
    · intro expand referrer s parts s' hparts
      have hlen := (ensures_length_shapesEach operands s).of_ok hparts
      refine ⟨_, _, closedForm (hlen ▸ hceiling), ?_, ?_⟩
      · rw [shapes_of_enumerates hany hne hle]
        exact map_eq_of_ok hparts _
      · rw [shapes_of_enumerates hall hne hle]
        exact map_eq_of_ok hparts _
    · intro parts hparts
      exact ⟨_, _, closedForm (hparts.length_eq ▸ hceiling), comesTo_joined hany hne hle hparts,
        comesTo_joined hall hne hle hparts⟩
  · rw [shapes_of_overflow hc h]
    rfl
  · rcases List.mem_append.mp h with h | h
    · exact lt_of_mem_nonEmptySubsets h
    · exact lt_of_mem_permutations h
  · exact fun c hc combine h expand referrer => shapes_eq_enumerated hc h

/-- A keyword, a comma, which has no shape, and a property that refers back to itself. -/
def threeOperands : List Tree := [.keyword "a", .symbol "," false, .reference "p" none true]

theorem orders_in_closed_form_on_cycle :
    threeOperands ≠ [] ∧ threeOperands.length ≤ entangled.settings.operandLimit ∧
    ∃ anyOf, (∀ x, x ∈ anyOf ↔ x = .literal "a" ∨ x = .anyString) ∧
      (Tree.joined .anyOrder threeOperands).ComesTo entangled anyOf ∧
      (Tree.joined .allRequired threeOperands).ComesTo entangled any := by
  have hne : threeOperands ≠ [] := nofun
  have hle : threeOperands.length ≤ entangled.settings.operandLimit := by decide
  have hparts : List.Forall₂ (Tree.ResolvesTo entangled) threeOperands
      [singleton (.literal "a"), empty, ofList [.literal "a", .anyString]] :=
    .cons ⟨[], "x", by decide +kernel⟩ <| .cons ⟨[], "x", by decide +kernel⟩ <|
      .cons ⟨[.property "q"], "y", by decide +kernel⟩ .nil
  obtain ⟨anyOf, allOf, hform, hany, hall⟩ :=
    ((orders_in_closed_form entangled hne).1 hle).2 _ hparts
  cases hform.allOf_several (by decide)
  refine ⟨hne, hle, anyOf, fun x => ?_, hany, hall⟩
  rw [hform.mem_anyOf]
  simp

end ValueSyntax
