import ValueSyntax.Catalog
import ValueSyntax.Resolve.Combine
import ValueSyntax.Resolve.Session
import ValueSyntax.Tree.Print

namespace ValueSyntax

open Ascending Shapes

def warn (w : Warning) : Resolving Unit := modify (·.warn w)

/-- Any string, with a warning. -/
def widened (w : Warning) : Resolving Shapes := do
  warn w
  return any

/-- The parser builds no such tree. -/
def withoutOperands (c : Connective) (referrer : String) : Failure :=
  ⟨⟨.inconsistent s!"{c.name} `{c.mark}` without operands", 0⟩, ⟨referrer, ""⟩⟩

/-- Enumerates the orders of a connective's operands, if there are not too many. -/
def enumerated (k : Catalog) (referrer : String) (c : Connective) (operands : Nat)
    (parts : Resolving (List Shapes)) (combine : List Shapes → Shapes) : Resolving Shapes :=
  if operands = 0 then throw (withoutOperands c referrer)
  else if k.settings.operandLimit < operands then
    widened (.tooManyOperands c.mark operands k.settings.operandLimit referrer)
  else combine <$> parts

namespace Tree

mutual

/-- The shapes of a tree in a definition named `referrer`. `expand name referrer` gives the shapes
of a referenced property. -/
def shapes (k : Catalog) (expand : String → String → Resolving Shapes) (referrer : String) :
    Tree → Resolving Shapes
  | keyword text => return singleton (.literal text)
  | symbol text quoted => return if quoted then singleton (.literal text) else empty
  | number text unit => return singleton (.ofNumber text unit)
  | reference name _ true => expand name referrer
  | reference name _ false =>
    if k.isKnownDataType name then return singleton (.dataType name)
    else widened (.unknownDataType name referrer)
  | function _ _ => return any
  | joined .juxtaposition [] => return empty
  | joined .juxtaposition [t] => shapes k expand referrer t
  | joined .juxtaposition _ => return any
  | joined .oneOf operands =>
    if operands.isEmpty then throw (withoutOperands .oneOf referrer)
    else unions <$> shapesEach k expand referrer operands
  | joined .anyOrder operands =>
    enumerated k referrer .anyOrder operands.length (shapesEach k expand referrer operands)
      inAnyOrder
  | joined .allRequired operands =>
    enumerated k referrer .allRequired operands.length (shapesEach k expand referrer operands)
      allInAnyOrder
  | group inner true => shapes k expand referrer inner
  | group _ false => return any
  | multiplied inner m =>
    if m.max = some 0 then return empty
    else if m.max = some 1 then shapes k expand referrer inner
    else return any

def shapesEach (k : Catalog) (expand : String → String → Resolving Shapes) (referrer : String) :
    List Tree → Resolving (List Shapes)
  | [] => return []
  | t :: ts => do
    let first ← shapes k expand referrer t
    let others ← shapesEach k expand referrer ts
    return first :: others

end

end Tree

end ValueSyntax
