import ValueSyntax.Number.Power
import ValueSyntax.Text.After

namespace ValueSyntax.Number

open Text

/-- Whether a text starts with a minus, and what follows its sign, if it has one. -/
def splitSign (cs : List Char) : Bool × List Char :=
  match after? ['-'] cs with
  | some rest => (true, rest)
  | none => (false, (after? ['+'] cs).getD cs)

def digitValue (c : Char) : Nat := c.toNat - '0'.toNat

def digitsValue (cs : List Char) : Nat := cs.foldl (fun n c => 10 * n + digitValue c) 0

/-- A non-empty run of decimal digits and nothing else. -/
def natural? (cs : List Char) : Option Nat :=
  if cs ≠ [] ∧ cs.all Char.isDigit then some (digitsValue cs) else none

/-- A count may carry a plus sign; `bound` is the first value that no longer fits. -/
def count? (bound : Nat) (cs : List Char) : Option Nat :=
  (natural? ((after? ['+'] cs).getD cs)).filter (· < bound)

def count32? : List Char → Option Nat := count? (twoTo 32)

def size? : List Char → Option Nat := count? (twoTo 64)

def integer? (cs : List Char) : Option Int :=
  match after? ['-'] cs with
  | some cs => ((natural? cs).filter (· ≤ twoTo 63)).map fun (n : Nat) => -(n : Int)
  | none => (count? (twoTo 63) cs).map Int.ofNat

def integerChars : Int → List Char
  | .ofNat n => Nat.toDigits 10 n
  | .negSucc n => '-' :: Nat.toDigits 10 (n + 1)

theorem length_splitSign_le (cs : List Char) : (splitSign cs).2.length ≤ cs.length := by
  unfold splitSign
  split
  · next h => simp [← append_of_after? h]
  · exact length_getD_after?_le _ _

theorem count?_lt {bound : Nat} {cs : List Char} {n : Nat} (h : count? bound cs = some n) :
    n < bound := by
  simpa using (Option.filter_eq_some_iff.mp h).2

end ValueSyntax.Number
