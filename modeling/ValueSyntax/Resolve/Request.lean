import ValueSyntax.Resolve.Normalize

namespace ValueSyntax

/-- The shapes of a definition, and whether they need the length parameter. -/
structure Resolution where
  types : List Shape
  needsLength : Bool
  deriving DecidableEq, Repr

def resolution (k : Catalog) (types : List Shape) : Resolving Resolution := do
  let needed ← needsLength k types
  return ⟨types, needed⟩

/-- Nothing if the catalog has no such property. -/
def resolveProperty (k : Catalog) (name : String) : Resolving (Option Resolution) :=
  match k.properties.get? name with
  | none => return none
  | some text => do
    let types ← resolveEntry k (expandProperty k [.property name]) (.property name) text
    some <$> resolution k types

def resolveDataType (k : Catalog) (name : String) : Resolving Resolution := do
  resolution k (← dataTypeShapes k name)

/-- The shapes of a definition that is in no table. Equal texts share them. -/
def textShapes (k : Catalog) (source : Source) : Resolving (List Shape) := do
  match (← get).texts.lookup source.text with
  | some types =>
    modify Session.hitText
    return types
  | none =>
    let types ← resolveSource k (expandProperty k []) source
    if (← get).openCycles.isEmpty then modify (·.rememberText source.text types)
    return types

def resolveText (k : Catalog) (source : Source) : Resolving Resolution := do
  resolution k (← textShapes k source)

def resolveTree (k : Catalog) (tree : Tree) (referrer : String) : Resolving Resolution := do
  let s ← tree.shapes k (expandProperty k []) referrer
  resolution k (k.settings.finish s)

/-- Properties by name, in order; names without a definition are left out. -/
def resolveProperties (k : Catalog) : List String → Resolving (List (String × Resolution))
  | [] => return []
  | name :: names => do
    let found ← resolveProperty k name
    let others ← resolveProperties k names
    return match found with
      | some r => (name, r) :: others
      | none => others

def resolveDataTypes (k : Catalog) : List String → Resolving (List (String × Resolution))
  | [] => return []
  | name :: names => do
    let r ← resolveDataType k name
    let others ← resolveDataTypes k names
    return (name, r) :: others

/-- What can be asked in a session. -/
inductive Request where
  | property (name : String)
  | dataType (name : String)
  | text (source : Source)
  | tree (tree : Tree) (referrer : String)
  | parsed (source : Source)
  | allProperties
  | allDataTypes
  | needsLength (types : List Shape)
  | dataTypeNeedsLength (name : String)
  | normalize (types : List Shape)
  /-- Forgets everything. -/
  | reset

inductive Reply where
  | unknown
  | resolved (r : Resolution)
  | resolvedEach (l : List (String × Resolution))
  | tree (t : Tree)
  | flag (b : Bool)
  | declared (types : List Declared)
  | done
  deriving DecidableEq

def Request.perform (k : Catalog) : Request → Resolving Reply
  | property name => do
    match ← resolveProperty k name with
    | some r => return .resolved r
    | none => return .unknown
  | dataType name => .resolved <$> resolveDataType k name
  | text source => .resolved <$> resolveText k source
  | tree t referrer => .resolved <$> resolveTree k t referrer
  | parsed source => .tree <$> readTree source
  | allProperties => .resolvedEach <$> resolveProperties k k.properties.keys
  | allDataTypes => .resolvedEach <$> resolveDataTypes k k.dataTypes.keys
  | needsLength types => .flag <$> ValueSyntax.needsLength k types
  | dataTypeNeedsLength name => .flag <$> ValueSyntax.dataTypeNeedsLength k name
  | normalize types => .declared <$> ValueSyntax.normalize k types
  | reset => do
    set ({} : Session)
    return .done

end ValueSyntax
