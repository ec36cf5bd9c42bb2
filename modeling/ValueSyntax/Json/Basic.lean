import ValueSyntax.Json.Numeral

namespace ValueSyntax

/-- A document. Objects keep their members in order, repeated ones included. A string whose
escapes leave half a surrogate pair alone is well formed but has no text. -/
inductive Json where
  | null
  | boolean (b : Bool)
  | number (n : Json.Numeral)
  | string (text : Option String)
  | array (items : List Json)
  | object (members : List (Option String × Json))
  deriving Inhabited

namespace Json

mutual

/-- Whether a document can be read in full: every string has a text, every number fits, and
arrays and objects are nested at most `depth` levels. -/
def readable (depth : Nat) : Json → Bool
  | null => true
  | boolean _ => true
  | number n => n.fits
  | string text => text.isSome
  | array items => 0 < depth && readableItems (depth - 1) items
  | object members => 0 < depth && readableMembers (depth - 1) members

def readableItems (depth : Nat) : List Json → Bool
  | [] => true
  | j :: js => readable depth j && readableItems depth js

def readableMembers (depth : Nat) : List (Option String × Json) → Bool
  | [] => true
  | (key, j) :: ms => key.isSome && readable depth j && readableMembers depth ms

end

def text? : Json → Option String
  | string text => text
  | _ => none

end Json

end ValueSyntax
