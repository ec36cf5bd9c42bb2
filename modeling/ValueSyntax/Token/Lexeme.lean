import ValueSyntax.Text.After
import ValueSyntax.Text.Blank
import ValueSyntax.Token.Basic

namespace ValueSyntax.Token

open Text

def isNameStart (c : Char) : Bool := c.isAlpha || c = '_'

def isNameChar (c : Char) : Bool := c.isAlphanum || c = '_' || c = '-'

/-- A name at the head of a text, and what follows: at most two dashes, a letter or an
underscore, then letters, digits, underscores and dashes. -/
def name? (cs : List Char) : Option (List Char × List Char) :=
  match cs.dropWhile (· = '-') with
  | c :: rest =>
    if (cs.takeWhile (· = '-')).length ≤ 2 ∧ isNameStart c then
      some (cs.takeWhile (· = '-') ++ c :: rest.takeWhile isNameChar, rest.dropWhile isNameChar)
    else none
  | [] => none

/-- A property name in single quotes. -/
def propertyName? (cs : List Char) : Option (List Char × List Char) := do
  let cs ← after? ['\''] cs
  let (name, cs) ← name? cs
  let rest ← after? ['\''] cs
  return ('\'' :: name ++ ['\''], rest)

def typeName? (cs : List Char) : Option (List Char × List Char) := do
  let (name, cs) ← name? cs
  match after? ['(', ')'] cs with
  | some rest => return (name ++ ['(', ')'], rest)
  | none => return (name, cs)

def range? (cs : List Char) : Option (List Char × List Char) := do
  let inner ← after? ['['] (cs.dropWhile isBlank)
  let rest ← after? [']'] (inner.dropWhile (· ≠ ']'))
  return (cs.takeWhile isBlank ++ '[' :: inner.takeWhile (· ≠ ']') ++ [']'], rest)

abbrev Match := Kind × List Char × List Char

def reference? (cs : List Char) : Option Match := do
  let cs ← after? ['<'] cs
  let (name, cs) ← propertyName? cs <|> typeName? cs
  let (range, cs) := (range? cs).getD ([], cs)
  let rest ← after? ['>'] cs
  return (.reference, name ++ range, rest)

def string? (cs : List Char) : Option Match := do
  let cs ← after? ['\''] cs
  let rest ← after? ['\''] (cs.dropWhile (· ≠ '\''))
  return (.string, cs.takeWhile (· ≠ '\''), rest)

/-- A point counts only with a digit after it. -/
def fraction? (cs : List Char) : Option (List Char × List Char) := do
  let rest ← after? ['.'] cs
  if rest.takeWhile Char.isDigit = [] then none
  else return ('.' :: rest.takeWhile Char.isDigit, rest.dropWhile Char.isDigit)

def unit (cs : List Char) : List Char × List Char :=
  match after? ['%'] cs with
  | some rest => (['%'], rest)
  | none => (cs.takeWhile Char.isAlpha, cs.dropWhile Char.isAlpha)

def sign (cs : List Char) : List Char × List Char :=
  match after? ['-'] cs with
  | some rest => (['-'], rest)
  | none => ([], cs)

def number? (cs : List Char) : Option Match :=
  let (sign, cs) := sign cs
  if cs.takeWhile Char.isDigit = [] then none
  else
    let (fraction, more) :=
      (fraction? (cs.dropWhile Char.isDigit)).getD ([], cs.dropWhile Char.isDigit)
    let (unit, rest) := unit more
    some (.number, sign ++ cs.takeWhile Char.isDigit ++ fraction ++ unit, rest)

/-- A name directly before a parenthesis is a function's. -/
def named? (cs : List Char) : Option Match := do
  let (name, cs) ← name? cs
  match after? ['('] cs with
  | some rest => return (.function, name, rest)
  | none => return (.identifier, name, cs)

/-- Marks by their texts; of two that start alike the longer one comes first. -/
def marks : List (List Char × Kind) := [
  (['|', '|'], .doubleBar), (['|'], .bar), (['&', '&'], .doubleAmpersand),
  (['['], .openBracket), ([']'], .closeBracket), (['\x7b'], .openCurly),
  (['\x7d'], .closeCurly), (['('], .openParen), ([')'], .closeParen), ([','], .comma),
  (['/'], .slash), (['*'], .star), (['+'], .plus), (['?'], .question), (['#'], .hash),
  (['!'], .exclamation)]

def mark? (cs : List Char) : Option Match :=
  marks.findSome? fun (text, kind) => (after? text cs).map fun rest => (kind, text, rest)

/-- The token at the head of a text: the first rule that applies. -/
def next? (cs : List Char) : Option Match :=
  reference? cs <|> string? cs <|> number? cs <|> named? cs <|> mark? cs

theorem name?_append {cs name rest : List Char} (h : name? cs = some (name, rest)) :
    name ++ rest = cs := by
  unfold name? at h
  split at h
  · next c more hd =>
    split at h
    · cases h
      rw [List.append_assoc, List.cons_append, List.takeWhile_append_dropWhile, ← hd,
        List.takeWhile_append_dropWhile]
    · cases h
  · cases h

theorem name?_ne_nil {cs name rest : List Char} (h : name? cs = some (name, rest)) :
    name ≠ [] := by
  unfold name? at h
  split at h
  · split at h <;> cases h
    simp
  · cases h

theorem propertyName?_append {cs name rest : List Char}
    (h : propertyName? cs = some (name, rest)) : name ++ rest = cs := by
  simp only [propertyName?, Option.bind_eq_bind, Option.bind_eq_some_iff] at h
  obtain ⟨more, h₁, ⟨inner, cs'⟩, h₂, rest', h₃, h⟩ := h
  cases h
  have h₃ : ['\''] ++ rest = cs' := append_of_after? h₃
  rw [← append_of_after? h₁, ← name?_append h₂, ← h₃]
  simp

theorem typeName?_append {cs name rest : List Char} (h : typeName? cs = some (name, rest)) :
    name ++ rest = cs := by
  simp only [typeName?, Option.bind_eq_bind, Option.bind_eq_some_iff] at h
  obtain ⟨⟨inner, cs'⟩, h₁, h⟩ := h
  rw [← name?_append h₁]
  split at h
  · next h₂ =>
    cases h
    have h₂ : ['(', ')'] ++ rest = cs' := append_of_after? h₂
    simp [← h₂]
  · cases h; rfl

theorem range?_append {cs range rest : List Char} (h : range? cs = some (range, rest)) :
    range ++ rest = cs := by
  simp only [range?, Option.bind_eq_bind, Option.bind_eq_some_iff] at h
  obtain ⟨inner, h₁, rest', h₂, h⟩ := h
  cases h
  have hb := append_of_after? h₁
  have hi := append_of_after? h₂
  calc _ = cs.takeWhile isBlank ++ ('[' :: (inner.takeWhile (· ≠ ']') ++ ([']'] ++ rest))) := by
        simp
    _ = cs.takeWhile isBlank ++ (['['] ++ inner) := by
        rw [hi, List.takeWhile_append_dropWhile]; rfl
    _ = cs := by rw [hb, List.takeWhile_append_dropWhile]

theorem fraction?_append {cs fraction rest : List Char}
    (h : fraction? cs = some (fraction, rest)) : fraction ++ rest = cs := by
  simp only [fraction?, Option.bind_eq_bind, Option.bind_eq_some_iff] at h
  obtain ⟨more, h₁, h⟩ := h
  split at h
  · cases h
  · cases h
    rw [List.cons_append, List.takeWhile_append_dropWhile]
    exact append_of_after? h₁

theorem unit_append (cs : List Char) : (unit cs).1 ++ (unit cs).2 = cs := by
  unfold unit
  split
  · next h => exact append_of_after? h
  · exact List.takeWhile_append_dropWhile

theorem sign_append (cs : List Char) : (sign cs).1 ++ (sign cs).2 = cs := by
  unfold sign
  split
  · next h => exact append_of_after? h
  · rfl

theorem getD_append (part? : List Char → Option (List Char × List Char)) (cs : List Char)
    (h : ∀ part rest, part? cs = some (part, rest) → part ++ rest = cs) :
    ((part? cs).getD ([], cs)).1 ++ ((part? cs).getD ([], cs)).2 = cs := by
  cases hp : part? cs with
  | none => rfl
  | some p => exact h _ _ hp

/-- A match is a non-empty piece of text, cut off at the head. -/
def Cuts (cs : List Char) : Match → Prop
  | (kind, value, rest) => lexeme kind value ≠ [] ∧ lexeme kind value ++ rest = cs

theorem cuts_of_reference? {cs : List Char} {m : Match} (h : reference? cs = some m) :
    Cuts cs m := by
  simp only [reference?, Option.bind_eq_bind, Option.bind_eq_some_iff] at h
  obtain ⟨cs₁, h₁, ⟨name, cs₂⟩, h₂, rest, h₃, h⟩ := h
  cases h
  have hname : name ++ cs₂ = cs₁ := by
    rw [Option.orElse_eq_orElse, Option.orElse_eq_or, Option.or_eq_some_iff] at h₂
    rcases h₂ with h₂ | ⟨_, h₂⟩
    · exact propertyName?_append h₂
    · exact typeName?_append h₂
  have hrange := getD_append range? cs₂ fun _ _ => range?_append
  have hclose := append_of_after? h₃
  refine ⟨by simp [lexeme], ?_⟩
  calc _ = ['<'] ++ (name ++ (((range? cs₂).getD ([], cs₂)).1 ++ (['>'] ++ rest))) := by
        simp [lexeme]
    _ = cs := by rw [hclose, hrange, hname, append_of_after? h₁]

theorem cuts_of_string? {cs : List Char} {m : Match} (h : string? cs = some m) : Cuts cs m := by
  simp only [string?, Option.bind_eq_bind, Option.bind_eq_some_iff] at h
  obtain ⟨cs₁, h₁, rest, h₂, h⟩ := h
  cases h
  refine ⟨by simp [lexeme], ?_⟩
  rw [← append_of_after? h₁]
  have := append_of_after? h₂
  calc _ = '\'' :: (cs₁.takeWhile (· ≠ '\'') ++ (['\''] ++ rest)) := by simp [lexeme]
    _ = _ := by rw [this, List.takeWhile_append_dropWhile]; rfl

theorem cuts_of_number? {cs : List Char} {m : Match} (h : number? cs = some m) : Cuts cs m := by
  unfold number? at h
  simp only at h
  split at h
  · cases h
  · next hd =>
    cases h
    have hf := getD_append fraction? ((sign cs).2.dropWhile Char.isDigit)
      fun _ _ => fraction?_append
    refine ⟨by simp [lexeme, hd], ?_⟩
    simp only [lexeme, List.append_assoc]
    rw [unit_append, hf, List.takeWhile_append_dropWhile, sign_append]

theorem cuts_of_named? {cs : List Char} {m : Match} (h : named? cs = some m) : Cuts cs m := by
  simp only [named?, Option.bind_eq_bind, Option.bind_eq_some_iff] at h
  obtain ⟨⟨name, more⟩, h₁, h⟩ := h
  rw [Cuts.eq_def, ← name?_append h₁]
  have hn := name?_ne_nil h₁
  split at h
  · next rest h₂ =>
    cases h
    have h₂ : ['('] ++ rest = more := append_of_after? h₂
    simp [lexeme, ← h₂]
  · cases h; simp [lexeme, hn]

theorem mark_ne_nil : ∀ m ∈ marks, m.1 ≠ [] ∧ lexeme m.2 m.1 = m.1 := by decide

theorem cuts_of_mark? {cs : List Char} {m : Match} (h : mark? cs = some m) : Cuts cs m := by
  obtain ⟨⟨text, kind⟩, hm, h⟩ := List.exists_of_findSome?_eq_some h
  obtain ⟨rest, hr, rfl⟩ := Option.map_eq_some_iff.mp h
  obtain ⟨hne, hl⟩ := mark_ne_nil _ hm
  exact ⟨by rwa [hl], by rw [hl]; exact append_of_after? hr⟩

theorem cuts_of_next? {cs : List Char} {m : Match} (h : next? cs = some m) : Cuts cs m := by
  simp only [next?, Option.orElse_eq_orElse, Option.orElse_eq_or, Option.or_eq_some_iff] at h
  rcases h with h | ⟨_, h | ⟨_, h | ⟨_, h | ⟨_, h⟩⟩⟩⟩
  · exact cuts_of_reference? h
  · exact cuts_of_string? h
  · exact cuts_of_number? h
  · exact cuts_of_named? h
  · exact cuts_of_mark? h

theorem length_rest_lt {cs value rest : List Char} {kind : Kind}
    (h : next? cs = some (kind, value, rest)) : rest.length < cs.length := by
  obtain ⟨hne, rfl⟩ := cuts_of_next? h
  have := List.length_pos_iff.mpr hne
  simp; omega

end ValueSyntax.Token
