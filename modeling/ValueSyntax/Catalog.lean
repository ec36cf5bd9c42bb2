import ValueSyntax.Shape.Builtin
import ValueSyntax.Table

namespace ValueSyntax

structure Settings where
  /-- The most operands of `||` and `&&` whose orders are enumerated. -/
  maxOperands : Nat := 8
  /-- A reference to a property stands for that property's shapes. -/
  inlineProperties : Bool := true
  /-- A definition without any shape allows any string. -/
  fallbackOnEmpty : Bool := true
  deriving DecidableEq, Repr, Inhabited

/-- Ten operands have 3628800 orders; no setting asks for more. -/
def operandCeiling : Nat := 10

def Settings.operandLimit (s : Settings) : Nat := min s.maxOperands operandCeiling

theorem Settings.operandLimit_le (s : Settings) : s.operandLimit ≤ operandCeiling :=
  Nat.min_le_right _ _

/-- The definitions of data types and properties, and how to resolve them. -/
structure Catalog where
  dataTypes : Table String String
  properties : Table String String
  settings : Settings := {}

def Catalog.isKnownDataType (k : Catalog) (name : String) : Bool :=
  (Builtin.ofName? name).isSome || k.dataTypes.contains name

theorem Catalog.isKnownDataType_of_mem_keys {k : Catalog} {name : String}
    (h : name ∈ k.dataTypes.keys) : k.isKnownDataType name := by
  simp [isKnownDataType, (Table.contains_iff_mem_keys _ _).mpr h]

end ValueSyntax
