import ValueSyntax.Ascending
import ValueSyntax.Number.Digits
import ValueSyntax.Text.Quoted

namespace ValueSyntax

open Text

/-- What a value can look like. -/
inductive Shape where
  | literal (text : String)
  | integer (value : Int)
  | anyString
  | anyNumber
  | length
  /-- The shapes of a named data type. -/
  | dataType (name : String)
  deriving DecidableEq, Repr, Inhabited

namespace Shape

def dataTypeName? : Shape → Option String
  | dataType name => some name
  | _ => none

def rank : Shape → Nat
  | literal _ => 0
  | integer _ => 1
  | anyString => 2
  | anyNumber => 3
  | length => 4
  | dataType _ => 5

def label : Shape → String
  | literal text => text
  | dataType name => name
  | _ => ""

def value : Shape → Int
  | integer value => value
  | _ => 0

/-- Literals come first, in the order of their texts; then integers by value, the open shapes,
and data types by name. -/
instance : Ord Shape where
  compare := compareLex (compareOn rank) (compareLex (compareOn label) (compareOn value))

theorem compare_def : (compare : Shape → Shape → Ordering) =
    compareLex (compareOn rank) (compareLex (compareOn label) (compareOn value)) := rfl

instance : Std.TransOrd Shape := by
  unfold Std.TransOrd
  rw [compare_def]
  infer_instance

theorem eq_of_fields {a b : Shape} (hr : a.rank = b.rank) (hl : a.label = b.label)
    (hv : a.value = b.value) : a = b := by
  cases a <;> cases b <;> simp_all [rank, label, value]

instance : Std.LawfulEqOrd Shape where
  eq_of_compare {a b} h := by
    simp only [compare_def, compareLex, Ordering.then_eq_eq, compareOn] at h
    exact eq_of_fields (Std.LawfulEqOrd.eq_of_compare h.1) (Std.LawfulEqOrd.eq_of_compare h.2.1)
      (Std.LawfulEqOrd.eq_of_compare h.2.2)

/-- Written as in a union: texts in double quotes, data types in angle brackets. -/
def chars : Shape → List Char
  | literal text => quotedChars text.toList
  | integer value => Number.integerChars value
  | anyString => "string".toList
  | anyNumber => "number".toList
  | length => "TLength".toList
  | dataType name => '<' :: name.toList ++ ['>']

end Shape

/-- A set of shapes. -/
abbrev Shapes := Ascending Shape

/-- Alternatives side by side. -/
def unionText {α : Type} (chars : α → List Char) (l : List α) : String :=
  String.ofList ([' ', '|', ' '].intercalate (l.map chars))

end ValueSyntax
