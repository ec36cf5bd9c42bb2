import ValueSyntax.Definitions.Basic
import ValueSyntax.Json.Read

namespace ValueSyntax

namespace Json

/-- The only member of a name; none of them is fine too, more are refused. -/
def onlyMember? (members : List (Option String × Json)) (name : String) : Option (Option Json) :=
  match members.filter (·.1 = some name) with
  | [] => some none
  | [(_, j)] => some (some j)
  | _ => none

/-- The fields of a record, from an object's members by name or from an array by place. Other
members are ignored, but their names must have a text. -/
def fields? (names : List String) : Json → Option (List (Option Json))
  | object members =>
    if members.all (·.1.isSome) then names.mapM (onlyMember? members) else none
  | array items =>
    if items.length ≤ names.length then
      some (items.map some ++ List.replicate (names.length - items.length) none)
    else none
  | _ => none

/-- A table of an object's members, in their order. A later member takes the place of an earlier
one of its name. -/
def table? {α : Type} (value? : Json → Option α) : Json → Option (Table String α)
  | object members =>
    members.foldlM (fun t (key, j) => do return t.insert (← key) (← value? j)) Table.empty
  | _ => none

def orEmpty? {α : Type} (empty : α) (value? : Json → Option α) : Option Json → Option α
  | some j => value? j
  | none => some empty

end Json

namespace Definitions

open Json

/-- Arrays and objects that are read in full are nested at most this deep, the whole document
counted. -/
def nestingLimit : Nat := 127

/-- The text of a definition: a string, or an object with one as its `syntax`. `level` is the
number of arrays and objects around it. -/
def text? (level : Nat) : Json → Option String
  | .string text => text
  | .object members =>
    if (Json.object members).readable (nestingLimit - level) then
      match onlyMember? members "syntax" with
      | some (some j) => j.text?
      | _ => none
    else none
  | _ => none

def texts? (level : Nat) : Json → Option (Table String String) := table? (text? (level + 1))

def atRule? (level : Nat) (j : Json) : Option AtRule := do
  match ← fields? ["descriptors"] j with
  | [descriptors] => return ⟨← orEmpty? .empty (texts? (level + 1)) descriptors⟩
  | _ => none

def pseudoClasses? : Json → Option (List String)
  | .array items => items.mapM Json.text?
  | _ => none

def ofJson? (j : Json) : Option Definitions := do
  match ← fields? ["properties", "syntaxes", "atRules", "pseudoClasses"] j with
  | [properties, dataTypes, atRules, pseudoClasses] =>
    return ⟨← orEmpty? .empty (texts? 1) properties, ← orEmpty? .empty (texts? 1) dataTypes,
      ← orEmpty? .empty (table? (atRule? 2)) atRules, ← orEmpty? [] pseudoClasses? pseudoClasses⟩
  | _ => none

def read? (text : String) : Option Definitions := do ofJson? (← Json.read? text)

end Definitions

end ValueSyntax
