import ValueSyntax.Proofs.Token.Forms

namespace ValueSyntax.Token

open Text

/-- A token's kind and value as the rules leave them. -/
inductive Formed : Kind → List Char → Prop
  | reference {name range : List Char} (hname : IsReferenceName name)
      (hrange : IsConstraint range) : Formed .reference (name ++ range)
  | string {value : List Char} (h : '\'' ∉ value) : Formed .string value
  | number {value : List Char} (h : IsNumber value) : Formed .number value
  | function {value : List Char} (h : IsName value) : Formed .function value
  | identifier {value : List Char} (h : IsName value) : Formed .identifier value
  | mark {kind : Kind} {value : List Char} (h : (value, kind) ∈ marks) : Formed kind value

theorem formed_of_reference? {cs value rest : List Char} {kind : Kind}
    (h : reference? cs = some (kind, value, rest)) : Formed kind value := by
  simp only [reference?, Option.bind_eq_bind, Option.bind_eq_some_iff] at h
  obtain ⟨_, _, ⟨name, more⟩, hname, _, _, h⟩ := h
  cases h
  refine .reference ?_ ?_
  · rw [Option.orElse_eq_orElse, Option.orElse_eq_or, Option.or_eq_some_iff] at hname
    rcases hname with hname | ⟨_, hname⟩
    · exact isReferenceName_of_propertyName? hname
    · exact isReferenceName_of_typeName? hname
  · cases hrange : range? more with
    | none => exact Or.inl rfl
    | some part => exact isConstraint_of_range? hrange

theorem formed_of_string? {cs value rest : List Char} {kind : Kind}
    (h : string? cs = some (kind, value, rest)) : Formed kind value := by
  simp only [string?, Option.bind_eq_bind, Option.bind_eq_some_iff] at h
  obtain ⟨_, _, _, _, h⟩ := h
  cases h
  refine .string fun hmem => ?_
  simpa using List.mem_takeWhile_imp hmem

theorem formed_of_named? {cs value rest : List Char} {kind : Kind}
    (h : named? cs = some (kind, value, rest)) : Formed kind value := by
  simp only [named?, Option.bind_eq_bind, Option.bind_eq_some_iff] at h
  obtain ⟨⟨name, more⟩, hname, h⟩ := h
  have hname := isName_of_name? hname
  split at h
  · cases h
    exact .function hname
  · cases h
    exact .identifier hname

theorem formed_of_mark? {cs value rest : List Char} {kind : Kind}
    (h : mark? cs = some (kind, value, rest)) : Formed kind value := by
  obtain ⟨⟨text, kind⟩, hm, h⟩ := List.exists_of_findSome?_eq_some h
  obtain ⟨_, _, h⟩ := Option.map_eq_some_iff.mp h
  cases h
  exact .mark hm

theorem formed_of_next? {cs value rest : List Char} {kind : Kind}
    (h : next? cs = some (kind, value, rest)) : Formed kind value := by
  simp only [next?, Option.orElse_eq_orElse, Option.orElse_eq_or, Option.or_eq_some_iff] at h
  rcases h with h | ⟨_, h | ⟨_, h | ⟨_, h | ⟨_, h⟩⟩⟩⟩
  · exact formed_of_reference? h
  · exact formed_of_string? h
  · obtain ⟨rfl, hnumber⟩ := isNumber_of_number? h
    exact .number hnumber
  · exact formed_of_named? h
  · exact formed_of_mark? h

/-- The characters that may go on with a token, or make another one of it. -/
def sticks (c : Char) : Bool := isNameChar c || goesOnWithNumber c || c = '(' || c = '|'

theorem lt_128_of_sticks {c : Char} (h : sticks c) : c.toNat < 128 := by
  simp only [sticks, isNameChar, goesOnWithNumber, Bool.or_eq_true, decide_eq_true_eq] at h
  rcases h with ((((h | rfl) | rfl) | ((h | rfl) | rfl)) | rfl) | rfl
  · exact lt_128_of_isAlphanum h
  · decide
  · decide
  · exact lt_128_of_isAlphanum h
  all_goals decide

theorem isBlank_of_sticks {c : Char} (h : sticks c) : isBlank c = false := by
  have := ascii_imp sticks (!isBlank ·) (by decide +kernel) (lt_128_of_sticks h) h
  simpa using this

theorem sticks_of_goesOnWithName {c : Char} (h : goesOnWithName c) : sticks c := by
  simp only [goesOnWithName, Bool.or_eq_true] at h
  rcases h with h | h <;> simp [sticks, h]

theorem sticks_of_startsName {c : Char} (h : startsName c) : sticks c := by
  simp only [startsName, isNameStart, Bool.or_eq_true, decide_eq_true_eq] at h
  rcases h with (h | h) | h <;> simp [sticks, isNameChar, Char.isAlphanum, h]

/-- The kinds of tokens that end where another character does. -/
def Kind.isOpen : Kind → Bool
  | number | identifier | bar => true
  | _ => false

theorem reference?_eq_none {c : Char} {cs : List Char} (h : c ≠ '<') :
    reference? (c :: cs) = none := by
  simp [reference?, after?_eq_none h]

theorem string?_eq_none {c : Char} {cs : List Char} (h : c ≠ '\'') : string? (c :: cs) = none := by
  simp [string?, after?_eq_none h]

theorem number?_eq_none {c : Char} {cs : List Char} (hdash : c ≠ '-') (hdigit : ¬ c.isDigit) :
    number? (c :: cs) = none := by
  have hsign : sign (c :: cs) = ([], c :: cs) := by rw [sign, after?_eq_none hdash]
  rw [number?, hsign]
  simp only [List.takeWhile_cons_of_neg hdigit, if_true]

theorem named?_eq_none {c : Char} {cs : List Char} (h : startsName c = false) :
    named? (c :: cs) = none := by
  simp only [startsName, Bool.or_eq_false_iff, decide_eq_false_iff_not] at h
  have hname : name? (c :: cs) = none := by
    rw [name?, List.dropWhile_cons_of_neg (by simpa using h.2)]
    simp only [h.1, Bool.false_eq_true, and_false, if_false]
  simp [named?, hname]

theorem next?_of_reference {name range : List Char} (hname : IsReferenceName name)
    (hrange : IsConstraint range) (rest : List Char) :
    next? ('<' :: (name ++ range) ++ ['>'] ++ rest) = some (.reference, name ++ range, rest) := by
  have hassoc : '<' :: (name ++ range) ++ ['>'] ++ rest =
      '<' :: (name ++ (range ++ '>' :: rest)) := by simp
  -- The name ends before a blank, the bracket of its range or the closing bracket.
  have hstop : Stops goesOnWithName (range ++ '>' :: rest) := by
    rcases hrange with rfl | ⟨blanks, inner, rfl, hblanks, _⟩
    · exact stops_cons.mpr (by decide)
    · cases blanks with
      | nil => exact stops_cons.mpr (by decide)
      | cons b blanks =>
        have hb := hblanks b (List.mem_cons_self ..)
        rw [List.cons_append, List.cons_append, List.cons_append, stops_cons, Bool.eq_false_iff]
        intro hgoes
        rw [isBlank_of_sticks (sticks_of_goesOnWithName hgoes)] at hb
        cases hb
  have hgets : (range? (range ++ '>' :: rest)).getD ([], range ++ '>' :: rest) =
      (range, '>' :: rest) := by
    by_cases hne : range = []
    · subst hne
      rfl
    · rw [range?_of_isConstraint hrange hne, Option.getD_some]
  have href : reference? ('<' :: (name ++ (range ++ '>' :: rest))) =
      some (.reference, name ++ range, rest) := by
    simp only [reference?, Option.bind_eq_bind, after?, if_true, Option.bind_some,
      referenceName?_of_isReferenceName hname hstop, hgets]
    rfl
  rw [hassoc, next?, href]
  rfl

theorem next?_of_string {value : List Char} (h : '\'' ∉ value) (rest : List Char) :
    next? ('\'' :: value ++ ['\''] ++ rest) = some (.string, value, rest) := by
  have hassoc : '\'' :: value ++ ['\''] ++ rest = '\'' :: (value ++ '\'' :: rest) := by simp
  have hall : ∀ c ∈ value, decide (c ≠ '\'') := all_ne_of_not_mem h
  have hstop : Stops (· ≠ '\'') ('\'' :: rest) := stops_cons.mpr (by decide)
  have hstring : string? ('\'' :: (value ++ '\'' :: rest)) = some (.string, value, rest) := by
    simp only [string?, Option.bind_eq_bind, after?, if_true, Option.bind_some,
      takeWhile_run hall hstop, dropWhile_run hall hstop]
    rfl
  rw [hassoc, next?, reference?_eq_none (by decide), hstring]
  rfl

theorem IsNumber.exists_cons {value : List Char} (h : IsNumber value) :
    ∃ c tail, value = c :: tail ∧ (c = '-' ∨ c.isDigit) := by
  obtain ⟨sign, digits, fraction, unit, rfl, rfl | rfl, hne, hdigits, _⟩ := h
  · obtain ⟨c, more, rfl⟩ := List.exists_cons_of_ne_nil hne
    exact ⟨c, more ++ fraction ++ unit, rfl, Or.inr (hdigits c (List.mem_cons_self ..))⟩
  · exact ⟨'-', digits ++ fraction ++ unit, rfl, Or.inl rfl⟩

theorem next?_of_isNumber {value rest : List Char} {m : Match} (h : IsNumber value)
    (hm : number? (value ++ rest) = some m) : next? (value ++ rest) = some m := by
  obtain ⟨c, tail, rfl, hc⟩ := h.exists_cons
  have hhead : c ≠ '<' ∧ c ≠ '\'' := by
    constructor <;> rintro rfl <;> exact absurd hc (by decide)
  rw [List.cons_append] at hm ⊢
  rw [next?, reference?_eq_none hhead.1, string?_eq_none hhead.2, hm]
  rfl

theorem next?_of_number {value rest : List Char} (h : IsNumber value) (hrest : Stops sticks rest) :
    next? (value ++ rest) = some (.number, value, rest) :=
  next?_of_isNumber h (number?_of_isNumber h (hrest.mono fun c hc => by simp [sticks, hc]))

/-- A name is no number: its first dash is followed by no digit. -/
theorem number?_of_isName {name rest : List Char} (h : IsName name) :
    number? (name ++ rest) = none := by
  obtain ⟨dashes, c, tail, rfl, hdashes, hlen, hc, _⟩ := h
  have hdigit : ¬ c.isDigit := by
    intro hd
    have hascii : c.toNat < 128 := lt_128_of_isAlphanum (by simp [Char.isAlphanum, hd])
    have := ascii_imp isNameStart (!·.isDigit) (by decide +kernel) hascii hc
    simp [hd] at this
  cases dashes with
  | nil => exact number?_eq_none (isNameStart_ne_dash hc) hdigit
  | cons d dashes =>
    obtain rfl := hdashes d (List.mem_cons_self ..)
    have hnext : (dashes ++ c :: (tail ++ rest)).takeWhile Char.isDigit = [] := by
      cases dashes with
      | nil => exact List.takeWhile_cons_of_neg hdigit
      | cons e dashes =>
        obtain rfl := hdashes e (by simp)
        exact List.takeWhile_cons_of_neg (by decide)
    have hsign : sign ('-' :: (dashes ++ c :: (tail ++ rest))) =
        (['-'], dashes ++ c :: (tail ++ rest)) := rfl
    rw [List.append_assoc, List.cons_append, List.cons_append, number?, hsign]
    simp only [hnext, if_true]

theorem next?_of_isName {name rest : List Char} {m : Match} (h : IsName name)
    (hm : named? (name ++ rest) = some m) : next? (name ++ rest) = some m := by
  have hnumber : number? (name ++ rest) = none := number?_of_isName h
  obtain ⟨c, tail, rfl, hc⟩ := h.exists_cons
  have hhead : c ≠ '<' ∧ c ≠ '\'' := by
    constructor <;> rintro rfl <;> exact absurd hc (by decide)
  rw [List.cons_append] at hnumber hm ⊢
  rw [next?, reference?_eq_none hhead.1, string?_eq_none hhead.2, hnumber, hm]
  rfl

theorem next?_of_function {name : List Char} (h : IsName name) (rest : List Char) :
    next? (name ++ ['('] ++ rest) = some (.function, name, rest) := by
  have hname : name? (name ++ '(' :: rest) = some (name, '(' :: rest) :=
    name?_of_isName h (stops_cons.mpr (by decide))
  rw [List.append_assoc]
  exact next?_of_isName h (by simp [named?, hname, after?])

theorem next?_of_identifier {name rest : List Char} (h : IsName name) (hrest : Stops sticks rest) :
    next? (name ++ rest) = some (.identifier, name, rest) := by
  have hname := name?_of_isName h (hrest.mono fun c hc => by simp [sticks, hc])
  have hparen : after? ['('] rest = none := hrest.after?_eq_none (by decide)
  exact next?_of_isName h (by simp [named?, hname, hparen])

/-- Only a bar can be a part of another mark. -/
theorem mark?_of_mem {kind : Kind} {value rest : List Char} (h : (value, kind) ∈ marks)
    (hbar : kind = .bar → after? ['|'] rest = none) :
    mark? (value ++ rest) = some (kind, value, rest) := by
  simp only [marks, List.mem_cons, Prod.mk.injEq, List.not_mem_nil, or_false] at h
  rcases h with ⟨rfl, rfl⟩ | ⟨rfl, rfl⟩ | ⟨rfl, rfl⟩ | ⟨rfl, rfl⟩ | ⟨rfl, rfl⟩ | ⟨rfl, rfl⟩ |
    ⟨rfl, rfl⟩ | ⟨rfl, rfl⟩ | ⟨rfl, rfl⟩ | ⟨rfl, rfl⟩ | ⟨rfl, rfl⟩ | ⟨rfl, rfl⟩ | ⟨rfl, rfl⟩ |
    ⟨rfl, rfl⟩ | ⟨rfl, rfl⟩ | ⟨rfl, rfl⟩
  case inr.inl => simp [mark?, marks, after?, hbar rfl]
  all_goals simp [mark?, marks, after?]

def startsMark (c : Char) : Bool :=
  c ≠ '<' && c ≠ '\'' && c ≠ '-' && !c.isDigit && !startsName c

theorem next?_of_mark {kind : Kind} {value rest : List Char} (h : (value, kind) ∈ marks)
    (hbar : kind = .bar → after? ['|'] rest = none) :
    next? (value ++ rest) = some (kind, value, rest) := by
  have hmark := mark?_of_mem h hbar
  have hstarts : ∀ m ∈ marks, m.1.head?.any startsMark := by decide
  have hany := hstarts _ h
  obtain ⟨c, tail, rfl⟩ := List.exists_cons_of_ne_nil (mark_ne_nil _ h).1
  simp only [List.head?_cons, Option.any_some, startsMark, Bool.and_eq_true, Bool.not_eq_true',
    decide_eq_true_eq] at hany
  obtain ⟨⟨⟨⟨hreference, hstring⟩, hdash⟩, hdigit⟩, hname⟩ := hany
  rw [List.cons_append] at hmark ⊢
  rw [next?, reference?_eq_none hreference, string?_eq_none hstring,
    number?_eq_none hdash (by simp [hdigit]), named?_eq_none hname, hmark]
  rfl

/-- A token is read again from its text, before anything that does not go on with it. -/
theorem next?_of_formed {kind : Kind} {value rest : List Char} (h : Formed kind value)
    (hrest : kind.isOpen → Stops sticks rest) :
    next? (lexeme kind value ++ rest) = some (kind, value, rest) := by
  cases h with
  | reference hname hrange => exact next?_of_reference hname hrange rest
  | string h => exact next?_of_string h rest
  | number h => exact next?_of_number h (hrest rfl)
  | function h => exact next?_of_function h rest
  | identifier h => exact next?_of_identifier h (hrest rfl)
  | mark h =>
    rw [(mark_ne_nil _ h).2]
    refine next?_of_mark h ?_
    rintro rfl
    exact (hrest rfl).after?_eq_none (by decide)

end ValueSyntax.Token
