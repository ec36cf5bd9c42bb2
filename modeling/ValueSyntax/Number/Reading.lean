import ValueSyntax.Number.Binary64
import ValueSyntax.Number.Digits

namespace ValueSyntax.Binary64

open Number Text

/-- An exponent stops growing once it has reached 65536: no number is that large or small. -/
def exponentValue (digits : List Char) : Nat :=
  digits.foldl (fun n c => if n < 65536 then 10 * n + digitValue c else n) 0

/-- The part from the exponent's mark on; nothing at all is the exponent zero. -/
def exponent? : List Char → Option Int
  | [] => some 0
  | mark :: cs =>
    let (negative, digits) := splitSign cs
    if (mark = 'e' ∨ mark = 'E') ∧ digits ≠ [] ∧ digits.all Char.isDigit then
      some (if negative then -(exponentValue digits : Int) else exponentValue digits)
    else none

/-- Digits with at most one point among them, then an exponent. -/
def unsignedDecimal? (negative : Bool) (cs : List Char) : Option Binary64 :=
  let whole := cs.takeWhile Char.isDigit
  let (fraction, marked) :=
    match after? ['.'] (cs.dropWhile Char.isDigit) with
    | some rest => (rest.takeWhile Char.isDigit, rest.dropWhile Char.isDigit)
    | none => ([], cs.dropWhile Char.isDigit)
  if whole = [] ∧ fraction = [] then none
  else (exponent? marked).map fun exponent =>
    ofDecimal negative (digitsValue (whole ++ fraction)) (exponent - fraction.length)

def unsigned? (negative : Bool) (cs : List Char) : Option Binary64 :=
  match unsignedDecimal? negative cs with
  | some x => some x
  | none =>
    let word := String.ofList (cs.map Char.toLower)
    if word = "inf" ∨ word = "infinity" then some (infinite negative)
    else if word = "nan" then some nan
    else none

/-- The number a text stands for: a decimal, `inf`, `infinity` or `nan` in any case, each after
an optional sign. -/
def read? (cs : List Char) : Option Binary64 := unsigned? (splitSign cs).1 (splitSign cs).2

end ValueSyntax.Binary64
