import ValueSyntax.Tree.Basic

namespace ValueSyntax

namespace Multiplier

def countChars (n : Nat) : List Char := Nat.toDigits 10 n

/-- Counts in braces: `{n}` for a fixed number, `{a,b}`, or `{a,}` without a maximum. -/
def rangeChars (min : Nat) (max : Option Nat) : List Char :=
  '\x7b' :: countChars min ++
    (match max with
      | some max => if max = min then [] else ',' :: countChars max
      | none => [',']) ++ ['\x7d']

/-- The text of a multiplier. Only after a group is exactly-once written with its own mark. -/
def chars (m : Multiplier) (afterGroup : Bool) : List Char :=
  match m.separator, m.min, m.max with
  | .space, 0, some 1 => ['?']
  | .space, 0, none => ['*']
  | .space, 1, none => ['+']
  | .space, min, max =>
    if min = 1 ∧ max = some 1 ∧ afterGroup then ['!'] else rangeChars min max
  | .comma, 1, none => ['#']
  | .comma, min, max => '#' :: rangeChars min max

end Multiplier

def Connective.spacedMark : Connective → List Char
  | juxtaposition => [' ']
  | c => ' ' :: c.mark.toList ++ [' ']

namespace Tree

mutual

/-- The canonical text of a definition. -/
def chars : Tree → List Char
  | keyword text => text.toList
  | symbol text quoted => if quoted then '\'' :: text.toList ++ ['\''] else text.toList
  | reference name range property =>
    '<' :: (if property then '\'' :: name.toList ++ ['\''] else name.toList) ++
      (match range with
        | some r => ' ' :: r.chars
        | none => []) ++ ['>']
  | number text unit => text.toList ++ (unit.getD "").toList
  | function name (joined .juxtaposition []) => name.toList ++ ['(', ')']
  | function name arguments => name.toList ++ '(' :: ' ' :: chars arguments ++ [' ', ')']
  | joined c operands => c.spacedMark.intercalate (charsEach operands)
  | group inner true => '[' :: ' ' :: chars inner ++ [' ', ']']
  | group inner false => '(' :: ' ' :: chars inner ++ [' ', ')']
  | multiplied inner m => chars inner ++ m.chars inner.isGroup

def charsEach : List Tree → List (List Char)
  | [] => []
  | t :: ts => chars t :: charsEach ts

end

def text (t : Tree) : String := String.ofList t.chars

end Tree

end ValueSyntax
