import ValueSyntax.Resolve.Length

namespace ValueSyntax

/-- The declaration of a shape: built-in data types are written out, others become aliases that
carry the length parameter if they need it. -/
def declare (k : Catalog) : Shape → Resolving Declared
  | .literal text => return .literal text
  | .integer value => return .integer value
  | .anyString => return .anyString
  | .anyNumber => return .anyNumber
  | .length => return .length
  | .dataType name =>
    match Builtin.ofName? name with
    | some builtin => return builtin.declared
    | none => do
      let needed ← dataTypeNeedsLength k name
      return .named name (if needed then [.length] else [])

def normalize (k : Catalog) (types : List Shape) : Resolving (List Declared) := do
  let declared ← types.mapM (declare k)
  return (Ascending.ofList declared).toList

end ValueSyntax
