import ValueSyntax.Resolve.Request

namespace ValueSyntax

/-- A rule that has descriptors instead of properties. -/
structure AtRule where
  descriptors : Table String String

/-- All that is defined: properties, data types, descriptors by at-rule, and pseudo-classes. -/
structure Definitions where
  properties : Table String String
  dataTypes : Table String String
  atRules : Table String AtRule
  pseudoClasses : List String

namespace Definitions

def catalog (d : Definitions) (settings : Settings) : Catalog :=
  ⟨d.dataTypes, d.properties, settings⟩

def descriptorName (rule descriptor : String) : String := rule ++ " " ++ descriptor

def descriptors (d : Definitions) : List (String × String × String) :=
  d.atRules.entries.flatMap fun (rule, r) =>
    r.descriptors.entries.map fun (descriptor, text) => (rule, descriptor, text)

def pseudoClassShapes (d : Definitions) : List Shape :=
  (Ascending.ofList (d.pseudoClasses.map Shape.literal)).toList

end Definitions

structure DescriptorResolution where
  rule : String
  descriptor : String
  resolution : Resolution

def resolveDescriptors (k : Catalog) :
    List (String × String × String) → Resolving (List DescriptorResolution)
  | [] => return []
  | (rule, descriptor, text) :: more => do
    let r ← resolveText k ⟨Definitions.descriptorName rule descriptor, text⟩
    let others ← resolveDescriptors k more
    return ⟨rule, descriptor, r⟩ :: others

end ValueSyntax
