import ValueSyntax.Failure
import ValueSyntax.Number.Digits
import ValueSyntax.Token.Basic
import ValueSyntax.Tree.Basic

namespace ValueSyntax.Tree

abbrev Shorter (α : Type) (ts : List Token) := { r : α × List Token // r.2.length < ts.length }

abbrev NotLonger (α : Type) (ts : List Token) := { r : α × List Token // r.2.length ≤ ts.length }

/-- The fault of a token that cannot stand where it is; `last` is the mark after all tokens. -/
def unexpected (last : Token) : List Token → Fault
  | [] => ⟨.unexpectedBecause last.value "expected a term before the end of the syntax", last.start⟩
  | t :: _ =>
    ⟨if t.kind.isMultiplier then .dangling t.value else .unexpected t.value, t.start⟩

/-- Steps over a closing mark. If no token is left, the opening one has no partner. -/
def closed (last : Token) (closing : Token.Kind) (opening : String) (openedAt : Nat)
    (ts : List Token) : Except Fault (Shorter Unit ts) :=
  match ts with
  | [] => .error ⟨.unbalanced opening, openedAt⟩
  | t :: rest =>
    if t.kind = closing then .ok ⟨((), rest), Nat.lt_succ_self _⟩
    else .error (unexpected last (t :: rest))

def repeatCount (last : Token) (ts : List Token) : Except Fault (Shorter Nat ts) :=
  match ts with
  | [] => .error ⟨.unexpectedBecause last.value "expected a repeat count", last.start⟩
  | t :: rest =>
    if t.kind = .number then
      match Number.count32? t.value.toList with
      | some n => .ok ⟨(n, rest), Nat.lt_succ_self _⟩
      | none => .error ⟨.invalidNumber t.value, t.start⟩
    else .error ⟨.unexpectedBecause t.value "expected a repeat count", t.start⟩

def startsWith (kind : Token.Kind) (ts : List Token) : Bool :=
  match ts with
  | [] => false
  | t :: _ => t.kind = kind

/-- The maximum: the minimum again without a comma, and none if no number follows the comma. -/
def repeatMaximum (last : Token) (min : Nat) (ts : List Token) :
    Except Fault (NotLonger (Option Nat) ts) :=
  match ts with
  | [] => .ok ⟨(some min, []), Nat.le_refl _⟩
  | t :: rest =>
    if t.kind = .comma then
      if startsWith .number rest then
        match repeatCount last rest with
        | .error fault => .error fault
        | .ok ⟨(max, rest'), h⟩ => .ok ⟨(some max, rest'), Nat.le_succ_of_le (Nat.le_of_lt h)⟩
      else .ok ⟨(none, rest), Nat.le_succ _⟩
    else .ok ⟨(some min, t :: rest), Nat.le_refl _⟩

def reversedCounts (min : Nat) : Option Nat → Bool
  | some max => max < min
  | none => false

/-- `A}`, `A,}` or `A,B}` after a brace opened at an offset. -/
def counted (last : Token) (separator : Separator) (openedAt : Nat) (ts : List Token) :
    Except Fault (Shorter Multiplier ts) :=
  match repeatCount last ts with
  | .error fault => .error fault
  | .ok ⟨(min, ts₁), h₁⟩ =>
    match repeatMaximum last min ts₁ with
    | .error fault => .error fault
    | .ok ⟨(max, ts₂), h₂⟩ =>
      match closed last .closeCurly "\x7b" openedAt ts₂ with
      | .error fault => .error fault
      | .ok ⟨(_, ts₃), h₃⟩ =>
        if reversedCounts min max then .error ⟨.reversedCounts min (max.getD min), openedAt⟩
        else .ok ⟨(⟨min, max, separator⟩, ts₃), Nat.lt_trans h₃ (Nat.lt_of_le_of_lt h₂ h₁)⟩

def braced (last : Token) (separator : Separator) (ts : List Token) :
    Except Fault (Shorter Multiplier ts) :=
  match ts with
  | [] => .error (unexpected last [])
  | t :: rest =>
    match counted last separator t.start rest with
    | .error fault => .error fault
    | .ok ⟨r, h⟩ => .ok ⟨r, Nat.lt_succ_of_lt h⟩

def multiplier? (last : Token) (operand : Tree) (ts : List Token) :
    Except Fault (Option (Shorter Multiplier ts)) :=
  match ts with
  | [] => .ok none
  | t :: rest =>
    match t.kind with
    | .star => .ok (some ⟨(⟨0, none, .space⟩, rest), Nat.lt_succ_self _⟩)
    | .plus => .ok (some ⟨(⟨1, none, .space⟩, rest), Nat.lt_succ_self _⟩)
    | .question => .ok (some ⟨(⟨0, some 1, .space⟩, rest), Nat.lt_succ_self _⟩)
    | .exclamation =>
      if operand.isBracketedGroup then
        .ok (some ⟨(⟨1, some 1, .space⟩, rest), Nat.lt_succ_self _⟩)
      else .error ⟨.unexpectedBecause "!" "`!` must follow a bracketed group", t.start⟩
    | .hash =>
      if startsWith .openCurly rest then
        match braced last .comma rest with
        | .error fault => .error fault
        | .ok ⟨r, h⟩ => .ok (some ⟨r, Nat.lt_succ_of_lt h⟩)
      else .ok (some ⟨(⟨1, none, .comma⟩, rest), Nat.lt_succ_self _⟩)
    | .openCurly =>
      match braced last .space (t :: rest) with
      | .error fault => .error fault
      | .ok r => .ok (some r)
    | _ => .ok none

/-- A term with all the multipliers that follow it. -/
def multipliedBy (last : Token) (operand : Tree) (ts : List Token) :
    Except Fault (NotLonger Tree ts) :=
  match multiplier? last operand ts with
  | .error fault => .error fault
  | .ok none => .ok ⟨(operand, ts), Nat.le_refl _⟩
  | .ok (some ⟨(m, rest), h⟩) =>
    have h : rest.length < ts.length := h
    match multipliedBy last (multiplied operand m) rest with
    | .error fault => .error fault
    | .ok ⟨r, h'⟩ => .ok ⟨r, Nat.le_trans h' (Nat.le_of_lt h)⟩
termination_by ts.length

end ValueSyntax.Tree
