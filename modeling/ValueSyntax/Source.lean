namespace ValueSyntax

/-- The text of one value definition, under the name it defines. -/
structure Source where
  name : String
  text : String
  deriving DecidableEq, Repr, Inhabited

/-- The bytes that a run of characters takes in UTF-8. Offsets into a text count bytes. -/
def byteLength : List Char → Nat
  | [] => 0
  | c :: cs => c.utf8Size + byteLength cs

theorem byteLength_append (a b : List Char) :
    byteLength (a ++ b) = byteLength a + byteLength b := by
  induction a with
  | nil => simp [byteLength]
  | cons c a ih => simp [byteLength, ih, Nat.add_assoc]

def charactersBefore (offset : Nat) : List Char → Nat
  | [] => 0
  | c :: cs => if offset = 0 then 0 else charactersBefore (offset - c.utf8Size) cs + 1

theorem charactersBefore_byteLength (a b : List Char) :
    charactersBefore (byteLength a) (a ++ b) = a.length := by
  induction a with
  | nil => cases b <;> simp [byteLength, charactersBefore]
  | cons c a ih =>
    have := Char.utf8Size_pos c
    simp [byteLength, charactersBefore, Nat.ne_of_gt this, ih]

end ValueSyntax
