import ValueSyntax.Failure
import ValueSyntax.Token.Lexeme

namespace ValueSyntax.Token

open Text

/-- The tokens of a text that starts at a byte offset, closed by the end mark. Blanks separate
tokens and are otherwise ignored. -/
def scanFrom (offset : Nat) (cs : List Char) : Except Fault (List Token) :=
  match cs with
  | [] => .ok [endAt offset]
  | c :: more =>
    if isBlank c then scanFrom (offset + c.utf8Size) more
    else
      match h : next? (c :: more) with
      | none => .error ⟨.unrecognised (String.singleton c), offset⟩
      | some (kind, value, rest) =>
        have := length_rest_lt h
        let stop := offset + byteLength (lexeme kind value)
        match scanFrom stop rest with
        | .ok tokens => .ok (⟨kind, String.ofList value, offset, stop⟩ :: tokens)
        | .error fault => .error fault
termination_by cs.length
decreasing_by
  · exact Nat.lt_succ_self _
  · assumption

def scan (text : String) : Except Fault (List Token) := scanFrom 0 text.toList

end ValueSyntax.Token
