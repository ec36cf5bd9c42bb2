import ValueSyntax.Shape.Basic

namespace ValueSyntax

open Text

inductive Generic where
  | length
  deriving DecidableEq, Repr

def Generic.chars : Generic → List Char
  | length => "TLength".toList

/-- A shape that a declaration can name: data types have become aliases. -/
inductive Declared where
  | literal (text : String)
  | integer (value : Int)
  | anyString
  | anyNumber
  | length
  | named (name : String) (generics : List Generic)
  deriving DecidableEq, Repr, Inhabited

namespace Declared

def rank : Declared → Nat
  | literal _ => 0
  | integer _ => 1
  | anyString => 2
  | anyNumber => 3
  | length => 4
  | named _ _ => 5

def label : Declared → String
  | literal text => text
  | named name _ => name
  | _ => ""

def value : Declared → Int
  | integer value => value
  | _ => 0

/-- There is one parameter to choose from, so the number of them says all. -/
def arity : Declared → Nat
  | named _ generics => generics.length
  | _ => 0

/-- The order of shapes; of two aliases with one name the one with fewer parameters comes first. -/
instance : Ord Declared where
  compare := compareLex (compareOn rank)
    (compareLex (compareOn label) (compareLex (compareOn value) (compareOn arity)))

theorem compare_def : (compare : Declared → Declared → Ordering) =
    compareLex (compareOn rank)
      (compareLex (compareOn label) (compareLex (compareOn value) (compareOn arity))) := rfl

instance : Std.TransOrd Declared := by
  unfold Std.TransOrd
  rw [compare_def]
  infer_instance

instance : Subsingleton Generic := ⟨fun | .length, .length => rfl⟩

theorem eq_of_length_generics {l m : List Generic} (h : l.length = m.length) : l = m :=
  List.ext_getElem h fun _ _ _ => Subsingleton.elim _ _

theorem eq_of_fields {a b : Declared} (hr : a.rank = b.rank) (hl : a.label = b.label)
    (hv : a.value = b.value) (ha : a.arity = b.arity) : a = b := by
  cases a <;> cases b <;> simp_all [rank, label, value, arity]
  exact eq_of_length_generics ha

instance : Std.LawfulEqOrd Declared where
  eq_of_compare {a b} h := by
    simp only [compare_def, compareLex, Ordering.then_eq_eq, compareOn] at h
    exact eq_of_fields (Std.LawfulEqOrd.eq_of_compare h.1) (Std.LawfulEqOrd.eq_of_compare h.2.1)
      (Std.LawfulEqOrd.eq_of_compare h.2.2.1) (Std.LawfulEqOrd.eq_of_compare h.2.2.2)

def chars : Declared → List Char
  | literal text => quotedChars text.toList
  | integer value => Number.integerChars value
  | anyString => "string".toList
  | anyNumber => "number".toList
  | length => "TLength".toList
  | named name [] => name.toList
  | named name generics =>
    name.toList ++ '<' :: [',', ' '].intercalate (generics.map Generic.chars) ++ ['>']

end Declared

end ValueSyntax
