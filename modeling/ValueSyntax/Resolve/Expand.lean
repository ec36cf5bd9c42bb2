import ValueSyntax.Resolve.Evaluate
import ValueSyntax.Tree.Parse
import ValueSyntax.Unseen

namespace ValueSyntax

open Ascending Shapes

/-- A set of shapes as a result. -/
def Settings.finish (settings : Settings) (s : Shapes) : List Shape :=
  if s.isEmpty ∧ settings.fallbackOnEmpty then [.anyString] else s.toList

def readTree (source : Source) : Resolving Tree := do
  match (← get).trees.lookup source.text with
  | some tree =>
    modify Session.hitTree
    return tree
  | none =>
    match source.tree with
    | .error failure => throw failure
    | .ok tree =>
      modify (·.rememberTree source.text tree)
      return tree

/-- Resolves a definition afresh, apart from its tree. -/
def resolveSource (k : Catalog) (expand : String → String → Resolving Shapes) (source : Source) :
    Resolving (List Shape) := do
  let tree ← readTree source
  let s ← tree.shapes k expand source.name
  return k.settings.finish s

/-- Runs a computation and closes an entry after it, also if it fails. -/
def closing {α : Type} (entry : Entry) (x : Resolving α) : Resolving α := fun s =>
  match x s with
  | .ok a s => .ok a (s.close entry)
  | .error e s => .error e (s.close entry)

/-- Resolves an entry of the catalog, at most once. The result is remembered unless a cycle of
references is still open, for then it may lack what the cycle adds. -/
def resolveEntry (k : Catalog) (expand : String → String → Resolving Shapes) (entry : Entry)
    (text : String) : Resolving (List Shape) := do
  match (← get).entries.lookup entry with
  | some types => return types
  | none =>
    match (← get).texts.lookup text with
    | some types =>
      modify Session.hitText
      modify (·.record entry types)
      return types
    | none =>
      modify (·.enter entry)
      let types ← closing entry (resolveSource k expand ⟨entry.name, text⟩)
      -- With a cycle open, some reference has only had any string stand in for it.
      if (← get).openCycles.isEmpty then
        modify (·.rememberText text types)
        modify (·.record entry types)
      return types

/-- The number of properties that can still be expanded below a path. -/
def Catalog.unexpanded (k : Catalog) (path : List Entry) : Nat :=
  unseen (k.properties.keys.map Entry.property) path

theorem Catalog.unexpanded_cons_lt {k : Catalog} {path : List Entry} {name text : String}
    (h : k.properties.get? name = some text) (hp : .property name ∉ path) :
    k.unexpanded (.property name :: path) < k.unexpanded path := by
  refine unseen_cons_lt (List.mem_map_of_mem ?_) hp
  exact (Table.contains_iff_mem_keys _ _).mp (by simp [Table.contains, h])

/-- The shapes of a property that a definition refers to. `path` holds the entries that are being
expanded: a reference to one of them closes a cycle and stands for any string. -/
def expandProperty (k : Catalog) (path : List Entry) (name referrer : String) : Resolving Shapes :=
  if !k.settings.inlineProperties then return any
  else
    match h : k.properties.get? name with
    | none => widened (.unknownProperty name referrer)
    | some text =>
      if hp : .property name ∈ path then do
        warn (.cyclicProperty name referrer)
        modify (·.openCycle name)
        return any
      else
        have := Catalog.unexpanded_cons_lt h hp
        ofList <$> resolveEntry k (expandProperty k (.property name :: path)) (.property name) text
termination_by k.unexpanded path

end ValueSyntax
