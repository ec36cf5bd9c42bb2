import ValueSyntax.Enumeration.Permutations
import ValueSyntax.Enumeration.Subsets
import ValueSyntax.Shape.Basic

namespace ValueSyntax.Shapes

open Ascending

def any : Shapes := singleton .anyString

/-- Operands one after the other: a single one keeps its shapes, more are just a string. -/
def inSequence : List Shapes → Shapes
  | [] => empty
  | [part] => part
  | _ => any

def pick (parts : List Shapes) (indices : List Nat) : List Shapes :=
  indices.filterMap (parts[·]?)

def inAnyOrder (parts : List Shapes) : Shapes :=
  (nonEmptySubsets parts.length).foldl (fun s indices => s ∪ inSequence (pick parts indices)) empty

def allInAnyOrder (parts : List Shapes) : Shapes :=
  foldPermutations parts.length (fun s order => s ∪ inSequence (pick parts order.toList)) empty

end ValueSyntax.Shapes
