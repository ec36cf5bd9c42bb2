import ValueSyntax.Tree.Parse

namespace ValueSyntax

/-- How tightly a connective binds; what an operand of it is read for. -/
def Connective.strength : Connective → Nat
  | oneOf => 1
  | anyOrder => 2
  | allRequired => 3
  | juxtaposition => 4

def Token.Kind.connective? : Token.Kind → Option Connective
  | bar => some .oneOf
  | doubleBar => some .anyOrder
  | doubleAmpersand => some .allRequired
  | kind => if kind.startsTerm then some .juxtaposition else none

/-- How tightly a token binds the operand before it: multipliers bind tightest, and zero stands for
tokens that do not bind. -/
def Token.Kind.strength (kind : Token.Kind) : Nat :=
  match kind.connective? with
  | some c => c.strength
  | none => if kind.isMultiplier then 5 else 0

namespace Tree

/-- A tree with one more operand. Operands of one connective make one node. -/
def addOperand (c : Connective) (left right : Tree) : Tree :=
  match left with
  | joined d operands => if d = c then joined c (operands ++ [right]) else joined c [left, right]
  | _ => joined c [left, right]

/-- The fault of a token that cannot stand where it is. -/
def misplaced (t : Token) : Fault :=
  if t.kind = .endMark then
    ⟨.unexpectedBecause t.value "expected a term before the end of the syntax", t.start⟩
  else ⟨if t.kind.isMultiplier then .dangling t.value else .unexpected t.value, t.start⟩

end Tree

/-- A computation at a position in a list of tokens. It may come to a fault, and it may not end. -/
abbrev Walk := ExceptT Fault (StateT Nat Option)

namespace Walk

/-- What a walk from a position comes to, and where; nothing if it does not end. -/
def outcome {α : Type} (x : Walk α) (pos : Nat) : Option (Except Fault α × Nat) := x.run.run pos

section Outcomes

variable {α β : Type} {x : Walk α} {a : α} {fault : Fault} {pos pos' : Nat}

@[simp] theorem outcome_pure (a : α) (pos : Nat) :
    (pure a : Walk α).outcome pos = some (.ok a, pos) := rfl

@[simp] theorem outcome_throw (fault : Fault) (pos : Nat) :
    (throw fault : Walk α).outcome pos = some (.error fault, pos) := rfl

theorem outcome_bind_of_ok (h : x.outcome pos = some (.ok a, pos')) (f : α → Walk β) :
    (x >>= f).outcome pos = (f a).outcome pos' := by
  show (x.run.run pos).bind _ = _
  rw [show x.run.run pos = _ from h]
  rfl

theorem outcome_bind_of_error (h : x.outcome pos = some (.error fault, pos')) (f : α → Walk β) :
    (x >>= f).outcome pos = some (.error fault, pos') := by
  show (x.run.run pos).bind _ = _
  rw [show x.run.run pos = _ from h]
  rfl

theorem outcome_bind_congr {y : Walk α} (h : x.outcome pos = y.outcome pos') (f : α → Walk β) :
    (x >>= f).outcome pos = (y >>= f).outcome pos' := by
  show (x.run.run pos).bind _ = (y.run.run pos').bind _
  rw [show x.run.run pos = _ from h]
  rfl

end Outcomes

end Walk

/-- Tokens to walk over. -/
abbrev Track := List Token

namespace Track

open ValueSyntax.Tree

variable (tokens : Track)

/-- The token at a position. Behind the last one it is still that one. -/
def tokenAt (pos : Nat) : Token :=
  tokens[min pos (tokens.length - 1)]?.getD (Token.endAt 0)

def here : Walk Token := return tokens.tokenAt (← get)

def step : Walk Unit := modify fun pos => if pos < tokens.length then pos + 1 else pos

@[simp] theorem outcome_here_bind {α : Type} (f : Token → Walk α) (pos : Nat) :
    (tokens.here >>= f).outcome pos = (f (tokens.tokenAt pos)).outcome pos := rfl

theorem outcome_step {pos : Nat} (h : pos < tokens.length) :
    tokens.step.outcome pos = some (.ok (), pos + 1) := by
  show some (Except.ok (), if pos < tokens.length then pos + 1 else pos) = _
  rw [if_pos h]

def closing (kind : Token.Kind) (opening : String) (openedAt : Nat) : Walk Unit := do
  let t ← tokens.here
  if t.kind = .endMark then throw ⟨.unbalanced opening, openedAt⟩
  else if t.kind = kind then tokens.step
  else throw (misplaced t)

def repeatCount : Walk Nat := do
  let t ← tokens.here
  if t.kind = .number then
    tokens.step
    match Number.count32? t.value.toList with
    | some n => return n
    | none => throw ⟨.invalidNumber t.value, t.start⟩
  else throw ⟨.unexpectedBecause t.value "expected a repeat count", t.start⟩

def repeatMaximum (min : Nat) : Walk (Option Nat) := do
  let t ← tokens.here
  if t.kind = .comma then
    tokens.step
    let number ← tokens.here
    if number.kind = .number then
      let max ← tokens.repeatCount
      return some max
    else return none
  else return some min

def counted (separator : Separator) (openedAt : Nat) : Walk Multiplier := do
  let min ← tokens.repeatCount
  let max ← tokens.repeatMaximum min
  tokens.closing .closeCurly "\x7b" openedAt
  if reversedCounts min max then throw ⟨.reversedCounts min (max.getD min), openedAt⟩
  else return ⟨min, max, separator⟩

def braced (separator : Separator) : Walk Multiplier := do
  let t ← tokens.here
  if t.kind = .openCurly then
    tokens.step
    tokens.counted separator t.start
  else throw (misplaced t)

def multiplier (operand : Tree) : Walk Multiplier := do
  let t ← tokens.here
  match t.kind with
  | .star => do
    tokens.step
    return ⟨0, none, .space⟩
  | .plus => do
    tokens.step
    return ⟨1, none, .space⟩
  | .question => do
    tokens.step
    return ⟨0, some 1, .space⟩
  | .exclamation =>
    if operand.isBracketedGroup then do
      tokens.step
      return ⟨1, some 1, .space⟩
    else throw ⟨.unexpectedBecause "!" "`!` must follow a bracketed group", t.start⟩
  | .hash => do
    tokens.step
    let brace ← tokens.here
    if brace.kind = .openCurly then tokens.braced .comma
    else return ⟨1, none, .comma⟩
  | .openCurly => tokens.braced .space
  | _ => throw (misplaced t)

def mark (c : Connective) : Walk Unit :=
  match c.kind? with
  | some _ => tokens.step
  | none => return

mutual

/-- A term, and whatever binds tighter than a strength after it. -/
def phrase (tokens : Track) (strength : Nat) : Walk Tree := do
  let first ← tokens |>.term
  tokens |>.onward strength first
partial_fixpoint

/-- What a token stands for at the beginning of a phrase. -/
def term (tokens : Track) : Walk Tree := do
  let t ← tokens.here
  match t.kind with
  | .openBracket => do
    tokens.step
    let inner ← tokens |>.phrase 0
    tokens.closing .closeBracket "[" t.start
    return group inner true
  | .openParen => do
    tokens.step
    let inner ← tokens |>.phrase 0
    tokens.closing .closeParen "(" t.start
    return group inner false
  | .function => do
    tokens.step
    let next ← tokens.here
    let arguments ← if next.kind = .closeParen then pure noArguments else tokens |>.phrase 0
    tokens.closing .closeParen "(" t.start
    return function t.value arguments
  | _ =>
    match ofLeaf? t with
    | some leaf => do
      tokens.step
      liftExcept leaf
    | none => throw (misplaced t)
partial_fixpoint

/-- Goes on as long as the token at hand binds tighter. -/
def onward (tokens : Track) (strength : Nat) (left : Tree) : Walk Tree := do
  let t ← tokens.here
  if strength < t.kind.strength then
    let left ← tokens |>.extended left
    tokens |>.onward strength left
  else return left
partial_fixpoint

/-- What a token stands for after an operand. -/
def extended (tokens : Track) (left : Tree) : Walk Tree := do
  let t ← tokens.here
  match t.kind.connective? with
  | some c => do
    tokens.mark c
    let right ← tokens |>.phrase c.strength
    return addOperand c left right
  | none => do
    let m ← tokens.multiplier left
    return multiplied left m
partial_fixpoint

end

/-- A whole definition: nothing but an end mark stands behind it. -/
def definition : Walk Tree := do
  let first ← tokens.here
  if tokens = [] ∨ first.kind = .endMark then throw ⟨.nothing, 0⟩
  else
    let tree ← tokens.phrase 0
    let t ← tokens.here
    if t.kind = .endMark then return tree
    else if t.kind = .closeBracket ∨ t.kind = .closeParen then throw ⟨.unbalanced t.value, t.start⟩
    else throw (misplaced t)

end Track

end ValueSyntax
