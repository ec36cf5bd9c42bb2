import ValueSyntax.Tree.Parse

namespace ValueSyntax.Tree

/-- Counts in braces: `{A}`, `{A,}` or `{A,B}`, with no maximum below the minimum. -/
inductive Counts : List Token → Nat → Option Nat → Prop
  | exactly {o a c : Token} {n : Nat} (ho : o.kind = .openCurly) (ha : a.kind = .number)
      (hn : Number.count32? a.value.toList = some n) (hc : c.kind = .closeCurly) :
      Counts [o, a, c] n (some n)
  | atLeast {o a s c : Token} {n : Nat} (ho : o.kind = .openCurly) (ha : a.kind = .number)
      (hn : Number.count32? a.value.toList = some n) (hs : s.kind = .comma)
      (hc : c.kind = .closeCurly) : Counts [o, a, s, c] n none
  | between {o a s b c : Token} {n m : Nat} (ho : o.kind = .openCurly) (ha : a.kind = .number)
      (hn : Number.count32? a.value.toList = some n) (hs : s.kind = .comma)
      (hb : b.kind = .number) (hm : Number.count32? b.value.toList = some m) (hle : n ≤ m)
      (hc : c.kind = .closeCurly) : Counts [o, a, s, b, c] n (some m)

/-- The tokens of one multiplier after an operand. -/
inductive Multiplies (operand : Tree) : List Token → Multiplier → Prop
  | star {t : Token} (h : t.kind = .star) : Multiplies operand [t] ⟨0, none, .space⟩
  | plus {t : Token} (h : t.kind = .plus) : Multiplies operand [t] ⟨1, none, .space⟩
  | question {t : Token} (h : t.kind = .question) : Multiplies operand [t] ⟨0, some 1, .space⟩
  /-- Only a bracketed group can be required to stand. -/
  | exclamation {t : Token} (h : t.kind = .exclamation) (hb : operand.isBracketedGroup) :
      Multiplies operand [t] ⟨1, some 1, .space⟩
  | hash {t : Token} (h : t.kind = .hash) : Multiplies operand [t] ⟨1, none, .comma⟩
  | counts {ts : List Token} {min : Nat} {max : Option Nat} (h : Counts ts min max) :
      Multiplies operand ts ⟨min, max, .space⟩
  | hashCounts {t : Token} {ts : List Token} {min : Nat} {max : Option Nat} (ht : t.kind = .hash)
      (h : Counts ts min max) : Multiplies operand (t :: ts) ⟨min, max, .comma⟩

/-- The tokens end with a lone `#`. -/
def EndsInHash (ts : List Token) : Prop := ∃ t, ts.getLast? = some t ∧ t.kind = .hash

/-- Operands with the marks of a connective between them. -/
inductive Joins (c : Connective) : List (List Token) → List Token → Prop
  | last (ts : List Token) : Joins c [ts] ts
  | marked {kind : Token.Kind} {mark : Token} {ts joinedTs : List Token} {more : List (List Token)}
      (hk : c.kind? = some kind) (hm : mark.kind = kind) (h : Joins c more joinedTs) :
      Joins c (ts :: more) (ts ++ mark :: joinedTs)
  | adjacent {ts joinedTs : List Token} {more : List (List Token)} (hk : c.kind? = none)
      (h : Joins c more joinedTs) : Joins c (ts :: more) (ts ++ joinedTs)

/-- The phrases of the grammar, from the tightest to the loosest. -/
inductive Phrase where
  | term
  | repeated
  | level (c : Connective)
  deriving DecidableEq

/-- What a connective joins. -/
def Phrase.operandOf : Connective → Phrase
  | .juxtaposition => repeated
  | .allRequired => level .juxtaposition
  | .anyOrder => level .allRequired
  | .oneOf => level .anyOrder

/-- The tokens are a phrase with this tree. -/
inductive Derives : Phrase → List Token → Tree → Prop
  | leaf {tok : Token} {t : Tree} (h : ofLeaf? tok = some (.ok t)) : Derives .term [tok] t
  | brackets {o c : Token} {ts : List Token} {inner : Tree} (ho : o.kind = .openBracket)
      (h : Derives (.level .oneOf) ts inner) (hc : c.kind = .closeBracket) :
      Derives .term (o :: (ts ++ [c])) (group inner true)
  | parentheses {o c : Token} {ts : List Token} {inner : Tree} (ho : o.kind = .openParen)
      (h : Derives (.level .oneOf) ts inner) (hc : c.kind = .closeParen) :
      Derives .term (o :: (ts ++ [c])) (group inner false)
  | emptyFunction {f c : Token} (hf : f.kind = .function) (hc : c.kind = .closeParen) :
      Derives .term [f, c] (function f.value noArguments)
  | function {f c : Token} {ts : List Token} {inner : Tree} (hf : f.kind = .function)
      (h : Derives (.level .oneOf) ts inner) (hc : c.kind = .closeParen) :
      Derives .term (f :: (ts ++ [c])) (function f.value inner)
  | once {ts : List Token} {t : Tree} (h : Derives .term ts t) : Derives .repeated ts t
  /-- A brace right after `#` belongs to it. -/
  | multiplied {ts ms : List Token} {inner : Tree} {m : Multiplier}
      (h : Derives .repeated ts inner) (hm : Multiplies inner ms m)
      (hash : EndsInHash ts → startsWith .openCurly ms = false) :
      Derives .repeated (ts ++ ms) (multiplied inner m)
  | single {c : Connective} {ts : List Token} {t : Tree} (h : Derives (.operandOf c) ts t) :
      Derives (.level c) ts t
  | joined {c : Connective} {parts : List (List Token × Tree)} {ts : List Token}
      (hlen : 2 ≤ parts.length) (h : ∀ p ∈ parts, Derives (.operandOf c) p.1 p.2)
      (hts : Joins c (parts.map Prod.fst) ts) :
      Derives (.level c) ts (joined c (parts.map Prod.snd))

end ValueSyntax.Tree
