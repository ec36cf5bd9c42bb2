import ValueSyntax.Proofs.Text.Bytes
import ValueSyntax.Shape.Basic

namespace ValueSyntax

open Text

/-- One kind of shapes stands before another; of one kind, texts and names are in the order of
their bytes and integers in that of their values. -/
inductive Shape.Precedes : Shape → Shape → Prop
  | rank {a b : Shape} (h : a.rank < b.rank) : Precedes a b
  | literal {s t : String} (h : bytes s < bytes t) : Precedes (literal s) (literal t)
  | integer {m n : Int} (h : m < n) : Precedes (integer m) (integer n)
  | dataType {m n : String} (h : bytes m < bytes n) : Precedes (dataType m) (dataType n)

namespace Shape

theorem compare_eq_lt_iff {a b : Shape} : compare a b = .lt ↔
    a.rank < b.rank ∨ a.rank = b.rank ∧
      (a.label < b.label ∨ a.label = b.label ∧ a.value < b.value) := by
  simp only [compare_def, compareLex, compareOn, Ordering.then_eq_lt,
    Std.LawfulEqOrd.compare_eq_iff_eq, compare_lt_iff_lt]

theorem precedes_iff {a b : Shape} : a.Precedes b ↔ compare a b = .lt := by
  rw [compare_eq_lt_iff]
  constructor
  · rintro (h | h | h | h)
    · exact Or.inl h
    · exact Or.inr ⟨rfl, Or.inl (bytes_lt_iff.mp h)⟩
    · exact Or.inr ⟨rfl, Or.inr ⟨rfl, h⟩⟩
    · exact Or.inr ⟨rfl, Or.inl (bytes_lt_iff.mp h)⟩
  · rintro (h | ⟨hrank, h⟩)
    · exact .rank h
    · -- Shapes of one kind can only differ in what the kind carries.
      cases a <;> cases b <;> simp [rank] at hrank
      case literal.literal s t =>
        exact .literal (bytes_lt_iff.mpr (h.resolve_right fun h => lt_irrefl _ h.2))
      case integer.integer m n => exact .integer (h.resolve_left (lt_irrefl _)).2
      case dataType.dataType m n =>
        exact .dataType (bytes_lt_iff.mpr (h.resolve_right fun h => lt_irrefl _ h.2))
      all_goals simp [label, value] at h

end Shape

end ValueSyntax
