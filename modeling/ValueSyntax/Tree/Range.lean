import ValueSyntax.Number.Reading
import ValueSyntax.Number.Shortest
import ValueSyntax.Text.Blank

namespace ValueSyntax

open Text

/-- The numbers that a reference allows, such as `[0,∞]`. An absent bound is infinite. -/
structure Range where
  min : Option Binary64
  max : Option Binary64
  deriving DecidableEq, Repr

namespace Range

/-- A bound: one of the spellings of its own infinity, or a number. -/
def bound? (infinities : List (List Char)) (cs : List Char) : Option (Option Binary64) :=
  if cs ∈ infinities then some none
  else if cs.getLast? = some '∞' then none
  else (Binary64.read? cs).map some

def low? : List Char → Option (Option Binary64) := bound? [['-', '∞']]

def high? : List Char → Option (Option Binary64) := bound? [['∞'], ['+', '∞']]

def reversed (r : Range) : Bool :=
  match r.min, r.max with
  | some min, some max => max.below min
  | _, _ => false

/-- The two bounds between the brackets, parted by the only comma. -/
def ofBody? (body : List Char) : Option Range :=
  match body.dropWhile (· ≠ ',') with
  | _ :: right =>
    if ',' ∈ right then none
    else
      match low? (trim (body.takeWhile (· ≠ ','))), high? (trim right) with
      | some min, some max => if reversed ⟨min, max⟩ then none else some ⟨min, max⟩
      | _, _ => none
  | [] => none

def read? (cs : List Char) : Option Range :=
  match after? ['['] (trim cs) with
  | some more => if more.getLast? = some ']' then ofBody? more.dropLast else none
  | none => none

def chars (r : Range) : List Char :=
  '[' :: (match r.min with | some min => min.chars | none => ['-', '∞']) ++
    ',' :: (match r.max with | some max => max.chars | none => ['∞']) ++ [']']

def same (r s : Range) : Bool :=
  let sameBound : Option Binary64 → Option Binary64 → Bool
    | some x, some y => x.same y
    | none, none => true
    | _, _ => false
  sameBound r.min s.min && sameBound r.max s.max

end Range

end ValueSyntax
