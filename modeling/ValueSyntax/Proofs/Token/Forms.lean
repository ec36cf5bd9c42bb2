import ValueSyntax.Proofs.Text.Characters
import ValueSyntax.Proofs.Text.Runs
import ValueSyntax.Token.Lexeme

namespace ValueSyntax

namespace Token

open Text

/-- At most two dashes, a letter or an underscore, then letters, digits, underscores and dashes. -/
def IsName (name : List Char) : Prop :=
  ∃ dashes c tail, name = dashes ++ c :: tail ∧ (∀ d ∈ dashes, d = '-') ∧ dashes.length ≤ 2 ∧
    isNameStart c ∧ ∀ d ∈ tail, isNameChar d

/-- A property's name in quotes, or a type's with an optional pair of parentheses. -/
def IsReferenceName (name : List Char) : Prop :=
  ∃ inner, IsName inner ∧
    (name = '\'' :: inner ++ ['\''] ∨ name = inner ∨ name = inner ++ ['(', ')'])

def IsConstraint (range : List Char) : Prop :=
  range = [] ∨ ∃ blanks inner, range = blanks ++ '[' :: inner ++ [']'] ∧
    (∀ c ∈ blanks, isBlank c) ∧ ']' ∉ inner

theorem isNameStart_ne_dash {c : Char} (h : isNameStart c) : c ≠ '-' := by
  rintro rfl
  exact absurd h (by decide)

theorem isName_of_name? {cs name rest : List Char} (h : name? cs = some (name, rest)) :
    IsName name := by
  unfold name? at h
  split at h
  · next c more _ =>
    split at h
    · next hc =>
      cases h
      refine ⟨cs.takeWhile (· = '-'), c, more.takeWhile isNameChar, rfl, ?_, hc.1, hc.2, ?_⟩
      · intro d hd
        simpa using List.mem_takeWhile_imp hd
      · intro d hd
        exact List.mem_takeWhile_imp hd
    · cases h
  · cases h

theorem name?_of_isName {name rest : List Char} (h : IsName name) (hrest : Stops isNameChar rest) :
    name? (name ++ rest) = some (name, rest) := by
  obtain ⟨dashes, c, tail, rfl, hdashes, hlen, hc, htail⟩ := h
  have hdash : ∀ d ∈ dashes, decide (d = '-') := by simpa using hdashes
  have hstop : Stops (· = '-') (c :: (tail ++ rest)) := by
    simpa using isNameStart_ne_dash hc
  rw [List.append_assoc, List.cons_append]
  simp only [name?, dropWhile_run hdash hstop, takeWhile_run hdash hstop, hlen, hc,
    takeWhile_run htail hrest, dropWhile_run htail hrest, and_self, if_true]

theorem isReferenceName_of_propertyName? {cs name rest : List Char}
    (h : propertyName? cs = some (name, rest)) : IsReferenceName name := by
  simp only [propertyName?, Option.bind_eq_bind, Option.bind_eq_some_iff] at h
  obtain ⟨_, _, ⟨inner, _⟩, hinner, _, _, h⟩ := h
  cases h
  exact ⟨inner, isName_of_name? hinner, Or.inl rfl⟩

theorem isReferenceName_of_typeName? {cs name rest : List Char}
    (h : typeName? cs = some (name, rest)) : IsReferenceName name := by
  simp only [typeName?, Option.bind_eq_bind, Option.bind_eq_some_iff] at h
  obtain ⟨⟨inner, _⟩, hinner, h⟩ := h
  refine ⟨inner, isName_of_name? hinner, Or.inr ?_⟩
  split at h
  · cases h
    exact Or.inr rfl
  · cases h
    exact Or.inl rfl

theorem isConstraint_of_range? {cs range rest : List Char} (h : range? cs = some (range, rest)) :
    IsConstraint range := by
  simp only [range?, Option.bind_eq_bind, Option.bind_eq_some_iff] at h
  obtain ⟨inner, _, _, _, h⟩ := h
  cases h
  refine Or.inr ⟨_, _, rfl, fun c hc => List.mem_takeWhile_imp hc, fun hmem => ?_⟩
  simpa using List.mem_takeWhile_imp hmem

/-- The characters that may go on with a name in angle brackets. -/
def goesOnWithName (c : Char) : Bool := isNameChar c || c = '('

theorem typeName?_of_isName {name rest : List Char} (h : IsName name)
    (hrest : Stops goesOnWithName rest) : typeName? (name ++ rest) = some (name, rest) := by
  have hname := name?_of_isName h (hrest.mono fun c hc => by simp [goesOnWithName, hc])
  have hparen : after? ['(', ')'] rest = none := hrest.after?_eq_none (by decide)
  simp [typeName?, hname, hparen]

theorem typeName?_of_parens {name rest : List Char} (h : IsName name) :
    typeName? (name ++ ['(', ')'] ++ rest) = some (name ++ ['(', ')'], rest) := by
  have hname : name? (name ++ '(' :: ')' :: rest) = some (name, '(' :: ')' :: rest) :=
    name?_of_isName h (by rw [stops_cons]; decide)
  rw [List.append_assoc]
  simp [typeName?, hname, after?]

def startsName (c : Char) : Bool := isNameStart c || c = '-'

theorem IsName.exists_cons {name : List Char} (h : IsName name) :
    ∃ c tail, name = c :: tail ∧ startsName c := by
  obtain ⟨dashes, c, tail, rfl, hdashes, _, hc, _⟩ := h
  cases dashes with
  | nil => exact ⟨c, tail, rfl, by simp [startsName, hc]⟩
  | cons d dashes =>
    obtain rfl := hdashes d (List.mem_cons_self ..)
    exact ⟨'-', _, rfl, by decide⟩

theorem IsReferenceName.ne_nil {name : List Char} (h : IsReferenceName name) : name ≠ [] := by
  obtain ⟨inner, hinner, hname⟩ := h
  obtain ⟨c, tail, rfl, _⟩ := hinner.exists_cons
  rcases hname with rfl | rfl | rfl <;> simp

theorem propertyName?_quoted {name rest : List Char} (h : IsName name) :
    propertyName? ('\'' :: name ++ ['\''] ++ rest) = some ('\'' :: name ++ ['\''], rest) := by
  have hname : name? (name ++ '\'' :: rest) = some (name, '\'' :: rest) :=
    name?_of_isName h (by rw [stops_cons]; decide)
  simp [propertyName?, after?, hname]

/-- The name of a reference is read up to what cannot go on with it. -/
theorem referenceName?_of_isReferenceName {name rest : List Char} (h : IsReferenceName name)
    (hrest : Stops goesOnWithName rest) :
    (propertyName? (name ++ rest) <|> typeName? (name ++ rest)) = some (name, rest) := by
  obtain ⟨inner, hinner, rfl | hname⟩ := h
  · rw [propertyName?_quoted hinner]
    rfl
  · have hquote : propertyName? (name ++ rest) = none := by
      obtain ⟨c, tail, rfl, hc⟩ := hinner.exists_cons
      have hne : c ≠ '\'' := by
        rintro rfl
        exact absurd hc (by decide)
      rcases hname with rfl | rfl <;> simp [propertyName?, after?, hne]
    rw [hquote]
    rcases hname with rfl | rfl
    · exact typeName?_of_isName hinner hrest
    · exact typeName?_of_parens hinner

theorem range?_of_isConstraint {range rest : List Char} (h : IsConstraint range)
    (hne : range ≠ []) : range? (range ++ rest) = some (range, rest) := by
  obtain rfl | ⟨blanks, inner, rfl, hblanks, hinner⟩ := h
  · exact absurd rfl hne
  · have hstop : Stops isBlank ('[' :: (inner ++ ']' :: rest)) := by
      rw [stops_cons]
      decide
    have hall : ∀ c ∈ inner, decide (c ≠ ']') := all_ne_of_not_mem hinner
    have hclose : Stops (· ≠ ']') (']' :: rest) := by
      rw [stops_cons]
      decide
    have hassoc : blanks ++ '[' :: inner ++ [']'] ++ rest =
        blanks ++ ('[' :: (inner ++ ']' :: rest)) := by simp
    rw [hassoc]
    simp only [range?, Option.bind_eq_bind, takeWhile_run hblanks hstop,
      dropWhile_run hblanks hstop, after?, if_true, Option.bind_some, takeWhile_run hall hclose,
      dropWhile_run hall hclose]
    rfl

def IsFraction (fraction : List Char) : Prop :=
  fraction = [] ∨ ∃ digits, fraction = '.' :: digits ∧ digits ≠ [] ∧ ∀ c ∈ digits, c.isDigit

def IsUnit (unit : List Char) : Prop := unit = ['%'] ∨ ∀ c ∈ unit, c.isAlpha

def IsNumber (number : List Char) : Prop :=
  ∃ sign digits fraction unit, number = sign ++ digits ++ fraction ++ unit ∧
    (sign = [] ∨ sign = ['-']) ∧ digits ≠ [] ∧ (∀ c ∈ digits, c.isDigit) ∧
    IsFraction fraction ∧ IsUnit unit

def goesOnWithNumber (c : Char) : Bool := c.isAlphanum || c = '.' || c = '%'

theorem isUnit_unit (cs : List Char) : IsUnit (unit cs).1 := by
  unfold unit
  split
  · exact Or.inl rfl
  · exact Or.inr fun c hc => List.mem_takeWhile_imp hc

theorem isFraction_of_fraction? {cs fraction rest : List Char}
    (h : fraction? cs = some (fraction, rest)) : IsFraction fraction := by
  simp only [fraction?, Option.bind_eq_bind, Option.bind_eq_some_iff] at h
  obtain ⟨more, _, h⟩ := h
  split at h
  · cases h
  · next hne =>
    cases h
    exact Or.inr ⟨_, rfl, hne, fun c hc => List.mem_takeWhile_imp hc⟩

theorem isNumber_of_number? {cs value rest : List Char} {kind : Kind}
    (h : number? cs = some (kind, value, rest)) : kind = .number ∧ IsNumber value := by
  unfold number? at h
  dsimp only at h
  split at h
  · cases h
  · next hne =>
    cases h
    refine ⟨rfl, _, _, _, _, rfl, ?_, hne, fun c hc => List.mem_takeWhile_imp hc, ?_,
      isUnit_unit _⟩
    · unfold sign
      split
      · exact Or.inr rfl
      · exact Or.inl rfl
    · cases hf : fraction? ((sign cs).2.dropWhile Char.isDigit) with
      | none => exact Or.inl rfl
      | some part => exact isFraction_of_fraction? hf

theorem unit_of_isUnit {cs rest : List Char} (h : IsUnit cs) (hrest : Stops goesOnWithNumber rest) :
    unit (cs ++ rest) = (cs, rest) := by
  rcases h with rfl | h
  · rfl
  · have hnone : after? ['%'] (cs ++ rest) = none := by
      cases cs with
      | nil => exact hrest.after?_eq_none (by decide)
      | cons c cs =>
        apply after?_eq_none
        rintro rfl
        exact absurd (h _ (List.mem_cons_self ..)) (by decide)
    have hstop : Stops Char.isAlpha rest :=
      hrest.mono fun c hc => by simp [goesOnWithNumber, Char.isAlphanum, hc]
    rw [unit, hnone]
    simp only [takeWhile_run h hstop, dropWhile_run h hstop]

theorem fraction?_of_isFraction {cs rest : List Char} (h : IsFraction cs)
    (hrest : Stops (fun c => c.isDigit || c = '.') rest) :
    (fraction? (cs ++ rest)).getD ([], cs ++ rest) = (cs, rest) := by
  rcases h with rfl | ⟨digits, rfl, hne, hdigits⟩
  · have hnone : after? ['.'] rest = none := hrest.after?_eq_none (by decide)
    simp [fraction?, hnone]
  · have hstop : Stops Char.isDigit rest := hrest.mono fun c hc => by simp [hc]
    rw [List.cons_append]
    simp only [fraction?, Option.bind_eq_bind, after?, if_true, Option.bind_some,
      takeWhile_run hdigits hstop, dropWhile_run hdigits hstop, hne, if_false]
    rfl

theorem stops_of_isUnit {cs rest : List Char} (h : IsUnit cs)
    (hrest : Stops goesOnWithNumber rest) :
    Stops (fun c => c.isDigit || c = '.') (cs ++ rest) := by
  match cs with
  | [] =>
    apply hrest.mono
    intro c hc
    simp only [Bool.or_eq_true] at hc
    rcases hc with hc | hc <;> simp [goesOnWithNumber, Char.isAlphanum, hc]
  | c :: cs =>
    rw [List.cons_append, stops_cons]
    rcases h with h | h
    · cases h
      decide
    · have hc := h c (List.mem_cons_self ..)
      have hascii : c.toNat < 128 := lt_128_of_isAlphanum (by simp [Char.isAlphanum, hc])
      have := ascii_imp Char.isAlpha (fun c => !(c.isDigit || c = '.')) (by decide +kernel)
        hascii hc
      simpa using this

/-- A point with digits after it, or what goes on with neither point nor digits. -/
theorem stops_of_isFraction {cs rest : List Char} (h : IsFraction cs)
    (hrest : Stops (fun c => c.isDigit || c = '.') rest) : Stops Char.isDigit (cs ++ rest) := by
  rcases h with rfl | ⟨digits, rfl, _, _⟩
  · exact hrest.mono fun c hc => by simp [hc]
  · rw [List.cons_append, stops_cons]
    decide

theorem number?_of_isNumber {cs rest : List Char} (h : IsNumber cs)
    (hrest : Stops goesOnWithNumber rest) : number? (cs ++ rest) = some (.number, cs, rest) := by
  obtain ⟨signChars, digits, fraction, unitChars, rfl, hsign, hne, hdigits, hfraction, hunit⟩ := h
  have hpoint := stops_of_isUnit hunit hrest
  have hdigit := stops_of_isFraction hfraction hpoint
  have hassoc : signChars ++ digits ++ fraction ++ unitChars ++ rest =
      signChars ++ (digits ++ (fraction ++ (unitChars ++ rest))) := by simp
  have hsigned : sign (signChars ++ (digits ++ (fraction ++ (unitChars ++ rest)))) =
      (signChars, digits ++ (fraction ++ (unitChars ++ rest))) := by
    rcases hsign with rfl | rfl
    · obtain ⟨c, more, rfl⟩ := List.exists_cons_of_ne_nil hne
      have hdash : after? ['-'] (c :: (more ++ (fraction ++ (unitChars ++ rest)))) = none := by
        apply after?_eq_none
        rintro rfl
        exact absurd (hdigits _ (List.mem_cons_self ..)) (by decide)
      simp [sign, hdash]
    · rfl
  rw [hassoc, number?, hsigned]
  simp only [takeWhile_run hdigits hdigit, dropWhile_run hdigits hdigit, hne, if_false,
    fraction?_of_isFraction hfraction hpoint, unit_of_isUnit hunit hrest]

end Token

end ValueSyntax
