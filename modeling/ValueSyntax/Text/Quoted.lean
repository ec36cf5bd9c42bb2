import ValueSyntax.Text.Unprintable

namespace ValueSyntax.Text

def hexadecimal (n : Nat) : List Char := Nat.toDigits 16 n

def shortEscapes : List (Char × Char) :=
  [('\x00', '0'), ('\t', 't'), ('\r', 'r'), ('\n', 'n'), ('\\', '\\'), ('"', '"')]

/-- A character inside double quotes. What cannot be printed alone is written as its code point. -/
def quotedChar (c : Char) : List Char :=
  match shortEscapes.lookup c with
  | some e => ['\\', e]
  | none =>
    if isUnprintable c then ['\\', 'u', '\x7b'] ++ hexadecimal c.toNat ++ ['\x7d'] else [c]

/-- A text between double quotes, on one line and without invisible characters. -/
def quotedChars (cs : List Char) : List Char := '"' :: cs.flatMap quotedChar ++ ['"']

def quoted (s : String) : String := String.ofList (quotedChars s.toList)

end ValueSyntax.Text
