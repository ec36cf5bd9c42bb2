namespace ValueSyntax

namespace Token

inductive Kind where
  | endMark
  | number
  | string
  | identifier
  | function
  | reference
  | openBracket
  | closeBracket
  | openCurly
  | closeCurly
  | openParen
  | closeParen
  | bar
  | doubleBar
  | doubleAmpersand
  | comma
  | slash
  | star
  | plus
  | question
  | hash
  | exclamation
  deriving DecidableEq, Repr, Inhabited

def Kind.name : Kind → String
  | endMark => "EOF"
  | number => "Number"
  | string => "String"
  | identifier => "Identifier"
  | function => "Function"
  | reference => "DataType"
  | openBracket => "OpenBracket"
  | closeBracket => "CloseBracket"
  | openCurly => "OpenCurly"
  | closeCurly => "CloseCurly"
  | openParen => "OpenParen"
  | closeParen => "CloseParen"
  | bar => "Bar"
  | doubleBar => "DoubleBar"
  | doubleAmpersand => "DoubleAmpersand"
  | comma => "Comma"
  | slash => "Slash"
  | star => "Star"
  | plus => "Plus"
  | question => "Question"
  | hash => "Hash"
  | exclamation => "Exclamation"

/-- A multiplier needs a term before it. -/
def Kind.isMultiplier : Kind → Bool
  | star | plus | question | hash | exclamation | openCurly => true
  | _ => false

/-- A term that follows another one is juxtaposed to it. -/
def Kind.startsTerm : Kind → Bool
  | identifier | string | comma | slash | reference | number | function | openBracket
  | openParen => true
  | _ => false

/-- The text that a token with this value was read from. -/
def lexeme (kind : Kind) (value : List Char) : List Char :=
  match kind with
  | .reference => '<' :: value ++ ['>']
  | .string => '\'' :: value ++ ['\'']
  | .function => value ++ ['(']
  | _ => value

end Token

/-- A piece of a definition, from the byte `start` up to the byte `stop`. -/
structure Token where
  kind : Token.Kind
  value : String
  start : Nat
  stop : Nat
  deriving DecidableEq, Repr, Inhabited

def Token.endAt (offset : Nat) : Token := ⟨.endMark, "EOF", offset, offset⟩

def Token.describe (t : Token) : String :=
  s!"Token \x7b\nkind: {t.kind.name},\nvalue: {t.value}\x7d"

end ValueSyntax
