import ValueSyntax.Resolve.Request

namespace ValueSyntax

open Ascending Shapes

/-- Whether the operands of a connective are resolved one by one. -/
def Connective.enumerates (k : Catalog) (operands : Nat) : Connective → Bool
  | juxtaposition => operands ≤ 1
  | oneOf => true
  | anyOrder => operands ≤ k.settings.operandLimit
  | allRequired => operands ≤ k.settings.operandLimit

/-- The shapes of a connective from those of its operands. -/
def Connective.combine : Connective → List Shapes → Shapes
  | juxtaposition => inSequence
  | oneOf => unions
  | anyOrder => inAnyOrder
  | allRequired => allInAnyOrder

namespace Tree

mutual

/-- The shapes of a tree, by the rules that a session follows. -/
def shapesAfresh (k : Catalog) (expand : String → Except Failure Shapes) (referrer : String) :
    Tree → Except Failure Shapes
  | keyword text => return singleton (.literal text)
  | symbol text quoted => return if quoted then singleton (.literal text) else empty
  | number text unit => return singleton (.ofNumber text unit)
  | reference name _ true => expand name
  | reference name _ false =>
    return if k.isKnownDataType name then singleton (.dataType name) else any
  | function _ _ => return any
  | joined c operands =>
    if operands.isEmpty ∧ c ≠ .juxtaposition then throw (withoutOperands c referrer)
    else if c.enumerates k operands.length then
      c.combine <$> shapesEachAfresh k expand referrer operands
    else return any
  | group inner true => shapesAfresh k expand referrer inner
  | group _ false => return any
  | multiplied inner m =>
    if m.max = some 0 then return empty
    else if m.max = some 1 then shapesAfresh k expand referrer inner
    else return any

def shapesEachAfresh (k : Catalog) (expand : String → Except Failure Shapes) (referrer : String) :
    List Tree → Except Failure (List Shapes)
  | [] => return []
  | t :: ts => do
    let first ← shapesAfresh k expand referrer t
    let others ← shapesEachAfresh k expand referrer ts
    return first :: others

end

end Tree

def sourceAfresh (k : Catalog) (expand : String → Except Failure Shapes) (source : Source) :
    Except Failure (List Shape) := do
  let tree ← source.tree
  let s ← tree.shapesAfresh k expand source.name
  return k.settings.finish s

/-- The shapes of a property that is referred to. On the path, it stands for any string. -/
def propertyAfresh (k : Catalog) (path : List String) (name : String) : Except Failure Shapes :=
  if !k.settings.inlineProperties then return any
  else
    match h : k.properties.get? name with
    | none => return any
    | some text =>
      if hp : name ∈ path then return any
      else
        have : unseen k.properties.keys (name :: path) < unseen k.properties.keys path :=
          unseen_cons_lt ((Table.contains_iff_mem_keys _ _).mp (by simp [Table.contains, h])) hp
        ofList <$> sourceAfresh k (propertyAfresh k (name :: path)) ⟨name, text⟩
termination_by unseen k.properties.keys path

/-- The definition of a property in the table: the property itself is on the path. -/
def definitionAfresh (k : Catalog) (name text : String) : Except Failure (List Shape) :=
  sourceAfresh k (propertyAfresh k [name]) ⟨name, text⟩

def dataTypeAfresh (k : Catalog) (name : String) : Except Failure (List Shape) :=
  match Builtin.ofName? name with
  | some builtin => return [builtin.shape]
  | none =>
    match k.dataTypes.get? name with
    | some text => sourceAfresh k (propertyAfresh k []) ⟨name, text⟩
    | none => return [.anyString]

/-- The type lists that a request asks for, each resolved by itself and labelled with its name if
several are asked for at once. -/
def Request.typesAfresh (k : Catalog) : Request → Except Failure (List (Option String × List Shape))
  | property name =>
    match k.properties.get? name with
    | some definition => (fun types => [(none, types)]) <$> definitionAfresh k name definition
    | none => return []
  | dataType name => (fun types => [(none, types)]) <$> dataTypeAfresh k name
  | text source => (fun types => [(none, types)]) <$> sourceAfresh k (propertyAfresh k []) source
  | tree t referrer =>
    (fun s => [(none, k.settings.finish s)]) <$> t.shapesAfresh k (propertyAfresh k []) referrer
  | allProperties =>
    k.properties.entries.mapM fun e =>
      (fun types => (some e.1, types)) <$> definitionAfresh k e.1 e.2
  | allDataTypes =>
    k.dataTypes.keys.mapM fun name => (fun types => (some name, types)) <$> dataTypeAfresh k name
  | _ => return []

def Reply.resolutions : Reply → List (Option String × Resolution)
  | resolved r => [(none, r)]
  | resolvedEach l => l.map fun e => (some e.1, e.2)
  | _ => []

def Reply.types (r : Reply) : List (Option String × List Shape) :=
  r.resolutions.map fun e => (e.1, e.2.types)

end ValueSyntax
