import ValueSyntax.Resolve.Expand

namespace ValueSyntax

/-- The shapes of a data type. A built-in one needs no definition. -/
def dataTypeShapes (k : Catalog) (name : String) : Resolving (List Shape) := do
  match (← get).entries.lookup (.dataType name) with
  | some types => return types
  | none =>
    match Builtin.ofName? name with
    | some builtin =>
      modify (·.rememberEntry (.dataType name) [builtin.shape])
      return [builtin.shape]
    | none =>
      match k.dataTypes.get? name with
      | some text => resolveEntry k (expandProperty k [.dataType name]) (.dataType name) text
      | none =>
        warn (.unknownDataType name name)
        return [.anyString]

def dataTypeNames (types : List Shape) : List String := types.filterMap Shape.dataTypeName?

theorem Catalog.unseen_cons_lt_of_contains {k : Catalog} {visited : List String} {name : String}
    (hd : k.dataTypes.contains name) (hn : name ∉ visited) :
    unseen k.dataTypes.keys (name :: visited) < unseen k.dataTypes.keys visited :=
  unseen_cons_lt ((Table.contains_iff_mem_keys _ _).mp hd) hn

/-- Goes through a stack of data types, each of them visited once. The first that leads on to
others is handed to `follow`, with those others on top of the stack, the last one first. -/
def throughStack (k : Catalog) (seen : List String)
    (follow : ∀ visited, unseen k.dataTypes.keys visited < unseen k.dataTypes.keys seen →
      List String → Resolving (Bool × List String)) :
    ∀ visited, unseen k.dataTypes.keys visited ≤ unseen k.dataTypes.keys seen →
      List String → Resolving (Bool × List String)
  | visited, _, [] => return (false, visited)
  | visited, hv, name :: stack =>
    if hn : name ∈ visited then throughStack k seen follow visited hv stack
    else
      have hle := Nat.le_trans (unseen_cons_le k.dataTypes.keys visited name) hv
      have hlt hd := Nat.lt_of_lt_of_le (Catalog.unseen_cons_lt_of_contains hd hn) hv
      do
        match (← get).lengths.lookup name with
        | some true => return (true, name :: visited)
        | some false => throughStack k seen follow (name :: visited) hle stack
        | none =>
          let types ← dataTypeShapes k name
          if .length ∈ types then return (true, name :: visited)
          else if hd : k.dataTypes.contains name then
            follow (name :: visited) (hlt hd) ((dataTypeNames types).reverse ++ stack)
          else throughStack k seen follow (name :: visited) hle stack

/-- Whether the length parameter is found from a stack of data types, and the data types visited.
Cycles contribute nothing. -/
def searchLength (k : Catalog) (visited stack : List String) : Resolving (Bool × List String) :=
  throughStack k visited (fun visited _ stack => searchLength k visited stack) visited
    (Nat.le_refl _) stack
termination_by unseen k.dataTypes.keys visited
decreasing_by assumption

def dataTypeNeedsLength (k : Catalog) (name : String) : Resolving Bool := do
  match (← get).lengths.lookup name with
  | some needed => return needed
  | none =>
    let (found, visited) ← searchLength k [] [name]
    if found then modify (·.rememberLength true name)
    else modify (visited.foldl (Session.rememberLength false))
    return found

/-- Whether one of the data types needs the length parameter; stops at the first. -/
def anyNeedsLength (k : Catalog) : List String → Resolving Bool
  | [] => return false
  | name :: names => do
    if ← dataTypeNeedsLength k name then return true
    else anyNeedsLength k names

/-- Whether shapes need the length parameter, themselves or through data types. -/
def needsLength (k : Catalog) (types : List Shape) : Resolving Bool :=
  if .length ∈ types then return true
  else anyNeedsLength k (dataTypeNames types)

end ValueSyntax
