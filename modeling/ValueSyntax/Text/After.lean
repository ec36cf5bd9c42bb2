namespace ValueSyntax.Text

/-- What follows a given text, if the characters start with it. -/
def after? : List Char → List Char → Option (List Char)
  | [], cs => some cs
  | _ :: _, [] => none
  | c :: text, d :: cs => if d = c then after? text cs else none

theorem append_of_after? {text cs rest : List Char} (h : after? text cs = some rest) :
    text ++ rest = cs := by
  induction text generalizing cs with
  | nil => cases h; rfl
  | cons c text ih =>
    cases cs with
    | nil => cases h
    | cons d cs =>
      unfold after? at h
      split at h
      · next hd => rw [List.cons_append, ih h, hd]
      · cases h

theorem length_getD_after?_le (text cs : List Char) :
    ((after? text cs).getD cs).length ≤ cs.length := by
  cases h : after? text cs with
  | none => exact Nat.le_refl _
  | some rest => simp [← append_of_after? h]

theorem after?_append (text rest : List Char) : after? text (text ++ rest) = some rest := by
  induction text with
  | nil => rfl
  | cons c text ih => simp [after?, ih]

end ValueSyntax.Text
