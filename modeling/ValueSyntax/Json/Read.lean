import ValueSyntax.Json.Lexeme

namespace ValueSyntax.Json

def lexemes? (before : List Lexeme) (cs : List Char) : Option (List Lexeme) :=
  match cs with
  | [] => some before.reverse
  | c :: more =>
    if isSpace c then lexemes? before more
    else
      match h : lexeme? (c :: more) with
      | some (l, rest) =>
        have := length_lexeme? h
        lexemes? (l :: before) rest
      | none => none
termination_by cs.length
decreasing_by
  · exact Nat.lt_succ_self _
  · assumption

/-- An array or object that is still open, with what it holds so far, latest first. -/
inductive Frame where
  | array (items : List Json)
  | object (members : List (Option String × Json)) (key : Option String)

inductive Expected where
  | value
  | firstItem
  | firstKey
  | key
  | colon
  | next
  | nothing (j : Json)

abbrev Reader := Expected × List Frame

def Reader.complete (j : Json) : List Frame → Reader
  | [] => (.nothing j, [])
  | .array items :: frames => (.next, .array (j :: items) :: frames)
  | .object members key :: frames => (.next, .object ((key, j) :: members) none :: frames)

def Reader.beginValue (frames : List Frame) : Lexeme → Option Reader
  | .openArray => some (.firstItem, .array [] :: frames)
  | .openObject => some (.firstKey, .object [] none :: frames)
  | .leaf j => some (complete j frames)
  | _ => none

def Reader.beginMember : List Frame → Lexeme → Option Reader
  | .object members _ :: frames, .leaf (.string key) =>
    some (.colon, .object members key :: frames)
  | _, _ => none

def Reader.close : List Frame → Lexeme → Option Reader
  | .array items :: frames, .closeArray => some (complete (.array items.reverse) frames)
  | .object members _ :: frames, .closeObject => some (complete (.object members.reverse) frames)
  | _, _ => none

/-- Whatever the nesting, a reader needs no more than its frames: documents are read without
recursion. -/
def Reader.step (r : Reader) (l : Lexeme) : Option Reader :=
  match r with
  | (.value, frames) => beginValue frames l
  | (.firstItem, frames) => close frames l <|> beginValue frames l
  | (.firstKey, frames) => close frames l <|> beginMember frames l
  | (.key, frames) => beginMember frames l
  | (.colon, frames) =>
    match l with
    | .colon => some (.value, frames)
    | _ => none
  | (.next, frames) =>
    match l, frames with
    | .comma, .array _ :: _ => some (.value, frames)
    | .comma, .object _ _ :: _ => some (.key, frames)
    | _, _ => close frames l
  | (.nothing _, _) => none

def read? (text : String) : Option Json := do
  match ← (← lexemes? [] text.toList).foldlM Reader.step (.value, []) with
  | (.nothing j, _) => some j
  | _ => none

end ValueSyntax.Json
