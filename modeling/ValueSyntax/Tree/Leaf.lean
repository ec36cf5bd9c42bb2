import ValueSyntax.Failure
import ValueSyntax.Token.Basic
import ValueSyntax.Tree.Basic

namespace ValueSyntax.Tree

open Text

/-- A property's name stands in quotes. -/
def isQuotedName (cs : List Char) : Bool :=
  2 ≤ cs.length && cs.head? = some '\'' && cs.getLast? = some '\''

/-- The tree of a reference token: a name, and a range from the first bracket on. -/
def ofReference (t : Token) : Except Fault Tree :=
  let inner := t.value.toList
  let name := trim (inner.takeWhile (· ≠ '['))
  let constraint := inner.dropWhile (· ≠ '[')
  let named (range : Option Range) : Tree :=
    if isQuotedName name then reference (String.ofList name.tail.dropLast) range true
    else reference (String.ofList name) range false
  if constraint = [] then .ok (named none)
  else
    match Range.read? constraint with
    | some range => .ok (named (some range))
    | none => .error ⟨.invalidRange (String.ofList constraint), t.start⟩

def startsUnit (c : Char) : Bool := c.isAlpha || c = '%'

/-- The tree of a number token. -/
def ofNumber (t : Token) : Except Fault Tree :=
  let value := t.value.toList.takeWhile (!startsUnit ·)
  let unit := t.value.toList.dropWhile (!startsUnit ·)
  if (Binary64.read? value).isNone then .error ⟨.invalidNumber t.value, t.start⟩
  else .ok (number (String.ofList value) (if unit = [] then none else some (String.ofList unit)))

/-- The tree of a token that is a term by itself. -/
def ofLeaf? (t : Token) : Option (Except Fault Tree) :=
  match t.kind with
  | .identifier => some (.ok (keyword t.value))
  | .string => some (.ok (symbol t.value true))
  | .comma | .slash => some (.ok (symbol t.value false))
  | .reference => some (ofReference t)
  | .number => some (ofNumber t)
  | _ => none

end ValueSyntax.Tree
