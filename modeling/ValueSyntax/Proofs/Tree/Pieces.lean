import ValueSyntax.Proofs.Token.Pieces
import ValueSyntax.Proofs.Tree.Bounds
import ValueSyntax.Tree.Parse
import ValueSyntax.Tree.Print

namespace ValueSyntax

open Token

namespace Multiplier

def rangePieces (min : Nat) (max : Option Nat) : List Piece :=
  .token .openCurly ['\x7b'] :: .token .number (countChars min) ::
    (match max with
      | some max =>
        if max = min then [] else [.token .comma [','], .token .number (countChars max)]
      | none => [.token .comma [',']]) ++ [.token .closeCurly ['\x7d']]

def pieces (m : Multiplier) (afterGroup : Bool) : List Piece :=
  match m.separator, m.min, m.max with
  | .space, 0, some 1 => [.token .question ['?']]
  | .space, 0, none => [.token .star ['*']]
  | .space, 1, none => [.token .plus ['+']]
  | .space, min, max =>
    if min = 1 ∧ max = some 1 ∧ afterGroup then [.token .exclamation ['!']]
    else rangePieces min max
  | .comma, 1, none => [.token .hash ['#']]
  | .comma, min, max => .token .hash ['#'] :: rangePieces min max

theorem textOf_rangePieces (min : Nat) (max : Option Nat) :
    textOf (rangePieces min max) = rangeChars min max := by
  cases max with
  | none => simp [rangePieces, rangeChars, Piece.chars, lexeme]
  | some max =>
    by_cases h : max = min <;> simp [rangePieces, rangeChars, Piece.chars, lexeme, h]

theorem textOf_pieces (m : Multiplier) (afterGroup : Bool) :
    textOf (m.pieces afterGroup) = m.chars afterGroup := by
  obtain ⟨min, max, separator⟩ := m
  have hhash : ∀ min max, textOf (.token .hash ['#'] :: rangePieces min max) =
      '#' :: rangeChars min max := fun min max => congrArg ('#' :: ·) (textOf_rangePieces min max)
  have hspace : ∀ min max, textOf (if min = 1 ∧ max = some 1 ∧ afterGroup then
      [.token .exclamation ['!']] else rangePieces min max) =
      if min = 1 ∧ max = some 1 ∧ afterGroup then ['!'] else rangeChars min max := by
    intro min max
    split
    · rfl
    · exact textOf_rangePieces min max
  cases separator with
  | space =>
    match min, max with
    | 0, none => rfl
    | 0, some 0 => exact hspace 0 (some 0)
    | 0, some 1 => rfl
    | 0, some (n + 2) => exact hspace 0 (some (n + 2))
    | 1, none => rfl
    | 1, some n => exact hspace 1 (some n)
    | n + 2, max => exact hspace (n + 2) max
  | comma =>
    match min, max with
    | 0, max => exact hhash 0 max
    | 1, none => rfl
    | 1, some n => exact hhash 1 (some n)
    | n + 2, max => exact hhash (n + 2) max

end Multiplier

def Connective.pieces (c : Connective) : List Piece :=
  match c.kind? with
  | some kind => [.blank, .token kind c.mark.toList, .blank]
  | none => [.blank]

theorem Connective.textOf_pieces (c : Connective) : textOf c.pieces = c.spacedMark := by
  cases c <;> rfl

namespace Tree

def constraintChars : Option Range → List Char
  | some r => ' ' :: r.chars
  | none => []

def referenceChars (name : String) (range : Option Range) (property : Bool) : List Char :=
  (if property then '\'' :: name.toList ++ ['\''] else name.toList) ++ constraintChars range

mutual

def pieces : Tree → List Piece
  | keyword text => [.token .identifier text.toList]
  | symbol text quoted =>
    if quoted then [.token .string text.toList]
    else [.token (if text = "/" then .slash else .comma) text.toList]
  | reference name range property => [.token .reference (referenceChars name range property)]
  | number text unit => [.token .number (text.toList ++ (unit.getD "").toList)]
  | function name (joined .juxtaposition []) =>
    [.token .function name.toList, .token .closeParen [')']]
  | function name arguments =>
    .token .function name.toList :: .blank :: pieces arguments ++ [.blank, .token .closeParen [')']]
  | joined c operands => c.pieces.intercalate (piecesEach operands)
  | group inner true =>
    .token .openBracket ['['] :: .blank :: pieces inner ++ [.blank, .token .closeBracket [']']]
  | group inner false =>
    .token .openParen ['('] :: .blank :: pieces inner ++ [.blank, .token .closeParen [')']]
  | multiplied inner m => pieces inner ++ m.pieces inner.isGroup

def piecesEach : List Tree → List (List Piece)
  | [] => []
  | t :: ts => pieces t :: piecesEach ts

end

theorem pieces_emptyFunction (name : String) : pieces (function name noArguments) =
    [.token .function name.toList, .token .closeParen [')']] := rfl

theorem chars_emptyFunction (name : String) :
    chars (function name noArguments) = name.toList ++ ['(', ')'] := rfl

theorem pieces_function {name : String} {arguments : Tree} (h : arguments ≠ noArguments) :
    pieces (function name arguments) = .token .function name.toList :: .blank ::
      pieces arguments ++ [.blank, .token .closeParen [')']] := by
  rw [pieces]
  exact h

theorem chars_function {name : String} {arguments : Tree} (h : arguments ≠ noArguments) :
    chars (function name arguments) =
      name.toList ++ '(' :: ' ' :: chars arguments ++ [' ', ')'] := by
  rw [chars]
  exact h

theorem piecesEach_eq_map (ts : List Tree) : piecesEach ts = ts.map pieces := by
  induction ts with
  | nil => rfl
  | cons t ts ih => simp [piecesEach, ih]

theorem textOf_intercalate (sep : List Piece) (pss : List (List Piece)) :
    textOf (sep.intercalate pss) = (textOf sep).intercalate (pss.map textOf) := by
  induction pss with
  | nil => rfl
  | cons ps pss ih =>
    cases pss with
    | nil => simp [List.intercalate]
    | cons qs pss =>
      simp only [List.intercalate_cons_cons, List.map_cons, textOf_append] at ih ⊢
      rw [ih]

mutual

theorem textOf_pieces (t : Tree) : textOf t.pieces = t.chars := by
  match t with
  | keyword text => simp [pieces, chars, Piece.chars, lexeme]
  | symbol text true => simp [pieces, chars, Piece.chars, lexeme]
  | symbol text false =>
    by_cases h : text = "/" <;> simp [pieces, chars, Piece.chars, lexeme, h]
  | reference name range property =>
    cases range <;>
      simp [pieces, chars, Piece.chars, lexeme, referenceChars, constraintChars]
  | number text unit => simp [pieces, chars, Piece.chars, lexeme]
  | function name arguments =>
    by_cases h : arguments = noArguments
    · subst h
      simp [pieces_emptyFunction, chars_emptyFunction, Piece.chars, lexeme]
    · simp [pieces_function h, chars_function h, Piece.chars, lexeme, textOf_pieces arguments]
  | joined c operands =>
    rw [pieces, chars, textOf_intercalate, c.textOf_pieces, textOf_piecesEach operands]
  | group inner true => simp [pieces, chars, Piece.chars, lexeme, textOf_pieces inner]
  | group inner false => simp [pieces, chars, Piece.chars, lexeme, textOf_pieces inner]
  | multiplied inner m => rw [pieces, chars, textOf_append, textOf_pieces inner, m.textOf_pieces]

theorem textOf_piecesEach (ts : List Tree) : (piecesEach ts).map textOf = charsEach ts := by
  match ts with
  | [] => rfl
  | t :: ts => rw [piecesEach, charsEach, List.map_cons, textOf_pieces t, textOf_piecesEach ts]

end

end Tree

end ValueSyntax
