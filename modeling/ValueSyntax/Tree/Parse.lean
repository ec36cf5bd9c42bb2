import ValueSyntax.Token.Scan
import ValueSyntax.Tree.Leaf
import ValueSyntax.Tree.Multiplied

namespace ValueSyntax

/-- A single operand stands for itself; two or more make one node, in order. -/
def Connective.join (c : Connective) (first : Tree) (others : List Tree) : Tree :=
  if others = [] then first else .joined c (first :: others)

def Connective.kind? : Connective → Option Token.Kind
  | oneOf => some .bar
  | anyOrder => some .doubleBar
  | allRequired => some .doubleAmpersand
  | juxtaposition => none

/-- The tokens from the next operand on, if the connective goes on here. Juxtaposition has no
mark of its own: it goes on wherever a term starts. -/
def Connective.next? (c : Connective) (ts : List Token) : Option (Tree.NotLonger Unit ts) :=
  match ts with
  | [] => none
  | t :: rest =>
    match c.kind? with
    | some kind => if t.kind = kind then some ⟨((), rest), Nat.le_succ _⟩ else none
    | none => if t.kind.startsTerm then some ⟨((), t :: rest), Nat.le_refl _⟩ else none

/-- Looser connectives contain tighter ones. -/
def Connective.looseness : Connective → Nat
  | juxtaposition => 0
  | allRequired => 1
  | anyOrder => 2
  | oneOf => 3

namespace Tree

theorem length_tail_le (ts : List Token) : ts.tail.length ≤ ts.length := by
  rw [List.length_tail]
  exact Nat.sub_le _ _

mutual

-- A call that consumes no token goes to a function of lower rank; all ranks are below ten.

/-- Operands joined by a connective. -/
def level (last : Token) (c : Connective) (ts : List Token) : Except Fault (Shorter Tree ts) :=
  match operand last c ts with
  | .error fault => .error fault
  | .ok ⟨(first, ts₁), h₁⟩ =>
    have h₁ : ts₁.length < ts.length := h₁
    match others last c ts₁ with
    | .error fault => .error fault
    | .ok ⟨(more, ts₂), h₂⟩ => .ok ⟨(c.join first more, ts₂), Nat.lt_of_le_of_lt h₂ h₁⟩
termination_by 10 * ts.length + 2 * c.looseness + 2
decreasing_by all_goals omega

/-- One operand of a connective: whatever binds tighter. -/
def operand (last : Token) (c : Connective) (ts : List Token) : Except Fault (Shorter Tree ts) :=
  match c with
  | .oneOf => level last .anyOrder ts
  | .anyOrder => level last .allRequired ts
  | .allRequired => level last .juxtaposition ts
  | .juxtaposition =>
    match term last ts with
    | .error fault => .error fault
    | .ok ⟨(t, ts₁), h₁⟩ =>
      match multipliedBy last t ts₁ with
      | .error fault => .error fault
      | .ok ⟨r, h₂⟩ => .ok ⟨r, Nat.lt_of_le_of_lt h₂ h₁⟩
termination_by 10 * ts.length + 2 * c.looseness + 1
decreasing_by all_goals simp only [Connective.looseness]; omega

def others (last : Token) (c : Connective) (ts : List Token) :
    Except Fault (NotLonger (List Tree) ts) :=
  match c.next? ts with
  | none => .ok ⟨([], ts), Nat.le_refl _⟩
  | some ⟨((), ts₁), h₁⟩ =>
    have h₁ : ts₁.length ≤ ts.length := h₁
    match operand last c ts₁ with
    | .error fault => .error fault
    | .ok ⟨(t, ts₂), h₂⟩ =>
      have h₂ : ts₂.length < ts.length := Nat.lt_of_lt_of_le h₂ h₁
      match others last c ts₂ with
      | .error fault => .error fault
      | .ok ⟨(more, ts₃), h₃⟩ => .ok ⟨(t :: more, ts₃), Nat.le_of_lt (Nat.lt_of_le_of_lt h₃ h₂)⟩
termination_by 10 * ts.length + 2 * c.looseness + 2
decreasing_by all_goals omega

/-- A leaf, a group or a function. -/
def term (last : Token) (ts : List Token) : Except Fault (Shorter Tree ts) :=
  match ts with
  | [] => .error (unexpected last [])
  | t :: rest =>
    match t.kind with
    | .openBracket =>
      match enclosed last .closeBracket "[" t.start rest with
      | .error fault => .error fault
      | .ok ⟨(inner, ts₁), h⟩ => .ok ⟨(group inner true, ts₁), Nat.lt_succ_of_lt h⟩
    | .openParen =>
      match enclosed last .closeParen "(" t.start rest with
      | .error fault => .error fault
      | .ok ⟨(inner, ts₁), h⟩ => .ok ⟨(group inner false, ts₁), Nat.lt_succ_of_lt h⟩
    | .function =>
      if startsWith .closeParen rest then
        .ok ⟨(function t.value noArguments, rest.tail), Nat.lt_succ_of_le (length_tail_le rest)⟩
      else
        match enclosed last .closeParen "(" t.start rest with
        | .error fault => .error fault
        | .ok ⟨(inner, ts₁), h⟩ => .ok ⟨(function t.value inner, ts₁), Nat.lt_succ_of_lt h⟩
    | _ =>
      match ofLeaf? t with
      | some (.ok leaf) => .ok ⟨(leaf, rest), Nat.lt_succ_self _⟩
      | some (.error fault) => .error fault
      | none => .error (unexpected last (t :: rest))
termination_by 10 * ts.length
decreasing_by all_goals rw [List.length_cons]; omega

/-- A whole definition up to the mark that closes it. -/
def enclosed (last : Token) (closing : Token.Kind) (opening : String) (openedAt : Nat)
    (ts : List Token) : Except Fault (Shorter Tree ts) :=
  match level last .oneOf ts with
  | .error fault => .error fault
  | .ok ⟨(inner, ts₁), h₁⟩ =>
    match closed last closing opening openedAt ts₁ with
    | .error fault => .error fault
    | .ok ⟨(_, ts₂), h₂⟩ => .ok ⟨(inner, ts₂), Nat.lt_trans h₂ h₁⟩
termination_by 10 * ts.length + 9
decreasing_by simp only [Connective.looseness]; omega

end

/-- The fault of tokens that are left over after a whole definition. -/
def leftOver (last t : Token) (rest : List Token) : Fault :=
  if t.kind = .closeBracket ∨ t.kind = .closeParen then ⟨.unbalanced t.value, t.start⟩
  else unexpected last (t :: rest)

/-- The tree of the tokens before the first end mark. -/
def ofTokens (tokens : List Token) : Except Fault Tree :=
  let last := (tokens.find? (·.kind = .endMark)).getD (Token.endAt 0)
  let ts := tokens.takeWhile (·.kind ≠ .endMark)
  if ts = [] then .error ⟨.nothing, 0⟩
  else
    match level last .oneOf ts with
    | .error fault => .error fault
    | .ok ⟨(tree, []), _⟩ => .ok tree
    | .ok ⟨(_, t :: rest), _⟩ => .error (leftOver last t rest)

def ofText (text : String) : Except Fault Tree :=
  match Token.scan text with
  | .error fault => .error fault
  | .ok tokens => ofTokens tokens

end Tree

def Source.located (source : Source) {α : Type} : Except Fault α → Except Failure α
  | .ok a => .ok a
  | .error fault => .error ⟨fault, source⟩

def Source.tokens (source : Source) : Except Failure (List Token) :=
  source.located (Token.scan source.text)

def Source.tree (source : Source) : Except Failure Tree :=
  source.located (Tree.ofText source.text)

end ValueSyntax
