import ValueSyntax.Source
import ValueSyntax.Text.Quoted

namespace ValueSyntax

open Text

/-- Why a value definition cannot be read or resolved. -/
inductive Cause where
  | unrecognised (text : String)
  | unexpected (token : String)
  | unexpectedBecause (token reason : String)
  | unbalanced (bracket : String)
  | dangling (multiplier : String)
  | reversedCounts (min max : Nat)
  | invalidRange (constraint : String)
  | invalidNumber (token : String)
  | nothing
  | inconsistent (message : String)
  deriving DecidableEq, Repr

namespace Cause

def name : Cause → String
  | unrecognised _ => "UnrecognisedToken"
  | unexpected _ => "UnexpectedToken"
  | unexpectedBecause _ _ => "UnexpectedTokenDetailed"
  | unbalanced _ => "UnbalancedBracket"
  | dangling _ => "DanglingMultiplier"
  | reversedCounts _ _ => "InvalidMultiplierRange"
  | invalidRange _ => "InvalidRangeConstraint"
  | invalidNumber _ => "NumberParseError"
  | nothing => "EmptySyntax"
  | inconsistent _ => "InternalConsistency"

def detail : Cause → String
  | unrecognised text => s!"unrecognised token: {quoted text}"
  | unexpected token => s!"unexpected token: {quoted token}"
  | unexpectedBecause token reason => s!"unexpected token ({quoted reason}): {quoted token}"
  | unbalanced bracket => s!"unbalanced bracket: {quoted bracket}"
  | dangling multiplier => s!"multiplier {quoted multiplier} applied to nothing"
  | reversedCounts min max => s!"invalid multiplier range \x7b{min},{max}\x7d"
  | invalidRange constraint => s!"invalid range constraint {quoted constraint}"
  | invalidNumber token => s!"error parsing number: {quoted token}"
  | nothing => "empty syntax"
  | inconsistent message => s!"internal consistency violation: {message}"

def tip? : Cause → Option String
  | unrecognised _ => none
  | unexpected token => some s!"Unexpected token: `{token}`, is an operand missing?"
  | unexpectedBecause token reason => some s!"Unexpected token: `{token}`, {reason}"
  | unbalanced bracket => some s!"Bracket `{bracket}` is never matched"
  | dangling multiplier =>
    some s!"Multiplier `{multiplier}` must follow a term or a bracketed group"
  | reversedCounts min max =>
    some s!"Range `\x7b{min},{max}\x7d` has a lower bound above its upper bound"
  | invalidRange constraint => some s!"Range constraint `{constraint}` should look like `[min,max]`"
  | invalidNumber token => some s!"Invalid number: `{token}`, is it above the integer limit?"
  | nothing => some "A value definition needs at least one term"
  | inconsistent message => some s!"The syntax tree is malformed: {message}"

/-- All but an inconsistent tree are faults of the text. -/
def isSyntactic : Cause → Bool
  | inconsistent _ => false
  | _ => true

end Cause

/-- A cause at a byte offset. -/
structure Fault where
  cause : Cause
  offset : Nat
  deriving DecidableEq, Repr

/-- A fault in the definition it was found in. -/
structure Failure extends Fault where
  source : Source
  deriving DecidableEq, Repr

instance exceptDecidableEq {ε α : Type} [DecidableEq ε] [DecidableEq α] :
    DecidableEq (Except ε α)
  | .ok a, .ok b => decidable_of_iff (a = b) (by simp)
  | .error a, .error b => decidable_of_iff (a = b) (by simp)
  | .ok _, .error _ | .error _, .ok _ => .isFalse nofun

namespace Failure

def message (f : Failure) : String :=
  s!"{f.cause.name} in `{f.source.name}` at offset {f.offset}: {f.cause.detail} " ++
    s!"(syntax: `{f.source.text}`)"

/-- The definition with a caret under the character at the offset. -/
def render (f : Failure) : String :=
  let headline := match f.cause.tip? with
    | none => s!"Error: {f.cause.name}"
    | some tip => s!"Error: {f.cause.name} ({tip})"
  let indent := List.replicate (charactersBefore f.offset f.source.text.toList) ' '
  String.intercalate "\n" [headline, s!"-> {f.source.name}", "   |", s!"   | {f.source.text}",
    "   | " ++ String.ofList indent ++ "^"]

end Failure

end ValueSyntax
