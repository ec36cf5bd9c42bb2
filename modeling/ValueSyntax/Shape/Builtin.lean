import ValueSyntax.Shape.Declared

namespace ValueSyntax

/-- What the data types that need no definition stand for. -/
inductive Builtin where
  | length
  | number
  | string
  deriving DecidableEq, Repr

namespace Builtin

def numberNames : List String := ["number", "integer"]

def stringNames : List String := [
  "string", "url", "percentage", "time", "angle", "frequency", "resolution", "flex", "ident",
  "custom-ident", "dashed-ident", "hex-color", "custom-property-name", "declaration-value",
  "any-value"]

def ofName? (name : String) : Option Builtin :=
  if name = "length" then some length
  else if name ∈ numberNames then some number
  else if name ∈ stringNames then some string
  else none

def shape : Builtin → Shape
  | length => .length
  | number => .anyNumber
  | string => .anyString

def declared : Builtin → Declared
  | length => .length
  | number => .anyNumber
  | string => .anyString

end Builtin

/-- The units of lengths, in lower case. -/
def lengthUnits : List String := [
  "px", "em", "rem", "ex", "rex", "ch", "rch", "cap", "rcap", "ic", "ric", "lh", "rlh",
  "vw", "vh", "vi", "vb", "vmin", "vmax", "svw", "svh", "lvw", "lvh", "dvw", "dvh",
  "cqw", "cqh", "cqi", "cqb", "cqmin", "cqmax", "cm", "mm", "q", "in", "pt", "pc"]

def isLengthUnit (unit : String) : Bool :=
  String.ofList (unit.toList.map Char.toLower) ∈ lengthUnits

/-- The shape of a number in a definition. Without a unit an integer is itself. -/
def Shape.ofNumber (text : String) : Option String → Shape
  | none =>
    match Number.integer? text.toList with
    | some value => .integer value
    | none => .anyNumber
  | some unit => if isLengthUnit unit then .length else .anyString

end ValueSyntax
