import ValueSyntax.Tree.Range

namespace ValueSyntax

inductive Separator where
  | space
  | comma
  deriving DecidableEq, Repr

/-- How often a term may stand. Without a maximum there is no limit. -/
structure Multiplier where
  min : Nat
  max : Option Nat
  separator : Separator
  deriving DecidableEq, Repr

/-- What joins operands, from the loosest connective to the tightest. -/
inductive Connective where
  | oneOf
  | anyOrder
  | allRequired
  | juxtaposition
  deriving DecidableEq, Repr

def Connective.name : Connective → String
  | oneOf => "OneOf"
  | anyOrder => "AnyOrder"
  | allRequired => "AllRequiredAnyOrder"
  | juxtaposition => "Sequence"

def Connective.mark : Connective → String
  | oneOf => "|"
  | anyOrder => "||"
  | allRequired => "&&"
  | juxtaposition => ""

/-- A value definition. -/
inductive Tree where
  | keyword (text : String)
  /-- A literal symbol; bare commas and slashes are not quoted. -/
  | symbol (text : String) (quoted : Bool)
  /-- `<name>`, or `<'name'>` for the value of a property. -/
  | reference (name : String) (range : Option Range) (property : Bool)
  | number (text : String) (unit : Option String)
  | function (name : String) (arguments : Tree)
  | joined (connective : Connective) (operands : List Tree)
  /-- `[ inner ]` if bracketed, else parentheses that belong to the value. -/
  | group (inner : Tree) (bracketed : Bool)
  | multiplied (inner : Tree) (multiplier : Multiplier)
  deriving Repr, Inhabited

namespace Tree

def isGroup : Tree → Bool
  | group _ _ => true
  | _ => false

def isBracketedGroup : Tree → Bool
  | group _ bracketed => bracketed
  | _ => false

/-- Whether the term stands at most once. -/
def isNonRepeating : Tree → Bool
  | multiplied _ m => m.max = some 0 || m.max = some 1
  | _ => true

/-- The parentheses of a function may be empty. -/
def noArguments : Tree := joined .juxtaposition []

mutual

def isEqual : Tree → Tree → Bool
  | keyword s, keyword t => s == t
  | symbol s p, symbol t q => s == t && p == q
  | reference s r p, reference t r' q => s == t && r == r' && p == q
  | number s u, number t v => s == t && u == v
  | function s a, function t b => s == t && isEqual a b
  | joined c l, joined d m => c == d && isEqualEach l m
  | group a p, group b q => isEqual a b && p == q
  | multiplied a m, multiplied b n => isEqual a b && m == n
  | _, _ => false

def isEqualEach : List Tree → List Tree → Bool
  | [], [] => true
  | a :: l, b :: m => isEqual a b && isEqualEach l m
  | _, _ => false

end

mutual

theorem isEqual_iff : ∀ {t u : Tree}, isEqual t u ↔ t = u
  | keyword _, u | symbol _ _, u | reference _ _ _, u | number _ _, u => by
    cases u <;> simp [isEqual, and_assoc]
  | function _ a, u | group a _, u | multiplied a _, u => by
    cases u <;> simp [isEqual, @isEqual_iff a]
  | joined _ l, u => by cases u <;> simp [isEqual, @isEqualEach_iff l]

theorem isEqualEach_iff : ∀ {ts us : List Tree}, isEqualEach ts us ↔ ts = us
  | [], us => by cases us <;> simp [isEqualEach]
  | t :: ts, us => by
    cases us <;> simp [isEqualEach, @isEqual_iff t, @isEqualEach_iff ts]

end

instance : DecidableEq Tree := fun _ _ => decidable_of_iff _ isEqual_iff

mutual

/-- Equal trees, with bounds compared as numbers. -/
def same : Tree → Tree → Bool
  | keyword s, keyword t => s == t
  | symbol s p, symbol t q => s == t && p == q
  | reference s r p, reference t r' q =>
    s == t && p == q && (match r, r' with
      | some r, some r' => r.same r'
      | none, none => true
      | _, _ => false)
  | number s u, number t v => s == t && u == v
  | function s a, function t b => s == t && same a b
  | joined c l, joined d m => c == d && sameEach l m
  | group a p, group b q => p == q && same a b
  | multiplied a m, multiplied b n => m == n && same a b
  | _, _ => false

def sameEach : List Tree → List Tree → Bool
  | [], [] => true
  | a :: l, b :: m => same a b && sameEach l m
  | _, _ => false

end

end Tree

end ValueSyntax
