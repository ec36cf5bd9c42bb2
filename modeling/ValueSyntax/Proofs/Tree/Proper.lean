import ValueSyntax.Proofs.Tree.Recognition

namespace ValueSyntax.Tree

/-- A tree in which nothing is joined that needs no joining. -/
inductive Proper : Tree → Prop
  | keyword (text : String) : Proper (keyword text)
  | symbol (text : String) (quoted : Bool) : Proper (symbol text quoted)
  | reference (name : String) (range : Option Range) (property : Bool) :
      Proper (reference name range property)
  | number (text : String) (unit : Option String) : Proper (number text unit)
  | emptyFunction (name : String) : Proper (function name noArguments)
  | function {name : String} {arguments : Tree} (h : Proper arguments) :
      Proper (function name arguments)
  | joined {c : Connective} {operands : List Tree} (hlen : 2 ≤ operands.length)
      (h : ∀ t ∈ operands, Proper t) : Proper (joined c operands)
  | group {inner : Tree} {bracketed : Bool} (h : Proper inner) : Proper (group inner bracketed)
  | multiplied {inner : Tree} {m : Multiplier} (h : Proper inner) : Proper (multiplied inner m)

theorem Proper.of_leaf {tok : Token} {t : Tree} (h : ofLeaf? tok = some (.ok t)) : t.Proper := by
  unfold ofLeaf? at h
  split at h
  · cases h
    exact .keyword _
  · cases h
    exact .symbol _ _
  · cases h
    exact .symbol _ _
  · cases h
    exact .symbol _ _
  · simp only [ofReference, Option.some.injEq] at h
    grind [Proper.reference]
  · simp only [ofNumber, Option.some.injEq] at h
    grind [Proper.number]
  · cases h

theorem Derives.proper {phrase : Phrase} {ts : List Token} {t : Tree} (h : Derives phrase ts t) :
    t.Proper := by
  induction h with
  | leaf h => exact .of_leaf h
  | brackets _ _ _ ih => exact .group ih
  | parentheses _ _ _ ih => exact .group ih
  | emptyFunction _ _ => exact .emptyFunction _
  | function _ _ _ ih => exact .function ih
  | once _ ih => exact ih
  | multiplied _ _ _ ih => exact .multiplied ih
  | single _ ih => exact ih
  | joined hlen _ _ ih =>
    refine .joined (by simpa using hlen) ?_
    intro t ht
    obtain ⟨p, hp, rfl⟩ := List.mem_map.mp ht
    exact ih p hp

theorem Proper.of_text {text : String} {t : Tree} (h : ofText text = .ok t) : t.Proper := by
  obtain ⟨_, _, hderives⟩ := ofText_eq_ok_iff.mp h
  exact hderives.proper

end ValueSyntax.Tree
