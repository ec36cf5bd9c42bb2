import ValueSyntax.Json.Basic
import ValueSyntax.Number.Digits

namespace ValueSyntax.Json

open Number Text

/-- A part of a string: a character, or a UTF-16 code unit that was escaped. -/
inductive Piece where
  | char (c : Char)
  | unit (n : Nat)
  deriving DecidableEq, Repr

/-- The text of a string. A high surrogate goes together with a low one right after it; alone
neither has a character. -/
def pieceText? : List Piece → Option (List Char)
  | [] => some []
  | .char c :: rest => (pieceText? rest).map (c :: ·)
  | .unit n :: rest =>
    if 0xD800 ≤ n ∧ n < 0xDC00 then
      match rest with
      | .unit m :: rest =>
        if 0xDC00 ≤ m ∧ m < 0xE000 then
          (pieceText? rest).map
            (Char.ofNat (0x10000 + (n - 0xD800) * 0x400 + (m - 0xDC00)) :: ·)
        else none
      | _ => none
    else if 0xDC00 ≤ n ∧ n < 0xE000 then none
    else (pieceText? rest).map (Char.ofNat n :: ·)

def hexDigit? (c : Char) : Option Nat :=
  if c.isDigit then some (digitValue c)
  else if 'a' ≤ c ∧ c ≤ 'f' then some (c.toNat - 'a'.toNat + 10)
  else if 'A' ≤ c ∧ c ≤ 'F' then some (c.toNat - 'A'.toNat + 10)
  else none

def shortEscapes : List (Char × Char) := [
  ('"', '"'), ('\\', '\\'), ('/', '/'), ('b', '\x08'), ('f', '\x0c'), ('n', '\n'), ('r', '\r'),
  ('t', '\t')]

def codeUnit? : List Char → Option (Nat × List Char)
  | a :: b :: c :: d :: rest =>
    match hexDigit? a, hexDigit? b, hexDigit? c, hexDigit? d with
    | some a, some b, some c, some d => some (((a * 16 + b) * 16 + c) * 16 + d, rest)
    | _, _, _, _ => none
  | _ => none

/-- The piece that an escape stands for, from the character after the backslash on. -/
def escape? : List Char → Option (Piece × List Char)
  | [] => none
  | c :: rest =>
    if c = 'u' then (codeUnit? rest).map fun (n, rest) => (.unit n, rest)
    else (shortEscapes.lookup c).map fun e => (.char e, rest)

theorem length_escape? {p : Piece} {cs rest : List Char} (h : escape? cs = some (p, rest)) :
    rest.length < cs.length := by
  unfold escape? at h
  split at h
  · cases h
  · split at h
    · obtain ⟨⟨n, rest'⟩, hu, he⟩ := Option.map_eq_some_iff.mp h
      cases he
      unfold codeUnit? at hu
      split at hu
      · split at hu <;> cases hu
        simp only [List.length_cons]
        omega
      · cases hu
    · obtain ⟨e, _, he⟩ := Option.map_eq_some_iff.mp h
      cases he
      exact Nat.lt_succ_self _

/-- The pieces of a string up to its closing quote, after those already read, latest first. -/
def pieces? (before : List Piece) (cs : List Char) : Option (List Piece × List Char) :=
  match cs with
  | [] => none
  | c :: more =>
    if c = '"' then some (before.reverse, more)
    else if c = '\\' then
      match h : escape? more with
      | some (p, rest) =>
        have := length_escape? h
        pieces? (p :: before) rest
      | none => none
    else if c.toNat < 0x20 then none
    else pieces? (.char c :: before) more
termination_by cs.length
decreasing_by
  · exact Nat.lt_succ_of_lt this
  · exact Nat.lt_succ_self _

/-- Digits without a leading zero. -/
def whole? (cs : List Char) : Option (List Char × List Char) :=
  let digits := cs.takeWhile Char.isDigit
  if digits = [] ∨ (digits.head? = some '0' ∧ digits ≠ ['0']) then none
  else some (digits, cs.dropWhile Char.isDigit)

def fraction? (cs : List Char) : Option (List Char × List Char) :=
  match after? ['.'] cs with
  | some rest =>
    if rest.takeWhile Char.isDigit = [] then none
    else some (rest.takeWhile Char.isDigit, rest.dropWhile Char.isDigit)
  | none => some ([], cs)

def exponent? : List Char → Option ((Bool × List Char) × List Char)
  | [] => some ((false, []), [])
  | mark :: cs =>
    if mark = 'e' ∨ mark = 'E' then
      if (splitSign cs).2.takeWhile Char.isDigit = [] then none
      else some (((splitSign cs).1, (splitSign cs).2.takeWhile Char.isDigit),
        (splitSign cs).2.dropWhile Char.isDigit)
    else some ((false, []), mark :: cs)

def numeral? (cs : List Char) : Option (Numeral × List Char) :=
  match whole? ((after? ['-'] cs).getD cs) with
  | none => none
  | some (whole, cs) =>
    match fraction? cs with
    | none => none
    | some (fraction, cs) =>
      match exponent? cs with
      | none => none
      | some ((negative, exponent), cs) => some (⟨whole, fraction, negative, exponent⟩, cs)

/-- The marks of a document, and values that hold no others. -/
inductive Lexeme where
  | openArray
  | closeArray
  | openObject
  | closeObject
  | comma
  | colon
  | leaf (j : Json)

def isSpace (c : Char) : Bool := c = ' ' || c = '\t' || c = '\n' || c = '\r'

def words : List (List Char × Lexeme) := [
  (['['], .openArray), ([']'], .closeArray), (['\x7b'], .openObject), (['\x7d'], .closeObject),
  ([','], .comma), ([':'], .colon), ("null".toList, .leaf .null),
  ("true".toList, .leaf (.boolean true)), ("false".toList, .leaf (.boolean false))]

def word? (cs : List Char) : Option (Lexeme × List Char) :=
  words.findSome? fun (text, l) => (after? text cs).map fun rest => (l, rest)

def string? (cs : List Char) : Option (Lexeme × List Char) := do
  let (ps, rest) ← pieces? [] (← after? ['"'] cs)
  return (.leaf (.string ((pieceText? ps).map .ofList)), rest)

def number? (cs : List Char) : Option (Lexeme × List Char) :=
  (numeral? cs).map fun (n, rest) => (.leaf (.number n), rest)

def lexeme? (cs : List Char) : Option (Lexeme × List Char) := word? cs <|> string? cs <|> number? cs

theorem length_pieces? {before ps : List Piece} {cs rest : List Char}
    (h : pieces? before cs = some (ps, rest)) : rest.length < cs.length := by
  fun_induction pieces? before cs with
  | case1 => cases h
  | case2 => cases h; exact Nat.lt_succ_self _
  | case3 _ _ _ _ he _ _ ih =>
    exact Nat.lt_succ_of_lt (Nat.lt_trans (ih h) (length_escape? he))
  | case4 => cases h
  | case5 => cases h
  | case6 _ _ _ _ _ _ ih => exact Nat.lt_succ_of_lt (ih h)

theorem length_dropWhile_lt {p : Char → Bool} {cs : List Char} (h : cs.takeWhile p ≠ []) :
    (cs.dropWhile p).length < cs.length := by
  have hl : (cs.takeWhile p ++ cs.dropWhile p).length = cs.length := by
    rw [List.takeWhile_append_dropWhile]
  have := List.length_pos_iff.mpr h
  rw [List.length_append] at hl
  omega

theorem length_whole? {cs digits rest : List Char} (h : whole? cs = some (digits, rest)) :
    rest.length < cs.length := by
  unfold whole? at h
  simp only at h
  split at h
  · cases h
  · next hd => cases h; exact length_dropWhile_lt fun e => hd (.inl e)

theorem length_fraction? {cs digits rest : List Char} (h : fraction? cs = some (digits, rest)) :
    rest.length ≤ cs.length := by
  unfold fraction? at h
  split at h
  · next ha =>
    split at h
    · cases h
    · next hd =>
      cases h
      rw [← append_of_after? ha]
      exact Nat.le_succ_of_le (Nat.le_of_lt (length_dropWhile_lt hd))
  · cases h; exact Nat.le_refl _

theorem length_exponent? {cs rest : List Char} {e : Bool × List Char}
    (h : exponent? cs = some (e, rest)) : rest.length ≤ cs.length := by
  unfold exponent? at h
  split at h
  · cases h; exact Nat.le_refl _
  · next cs =>
    split at h
    · split at h
      · cases h
      · next hd =>
        cases h
        have := length_dropWhile_lt hd
        have := length_splitSign_le cs
        simp only [List.length_cons]
        omega
    · cases h; exact Nat.le_refl _

theorem length_numeral? {cs rest : List Char} {n : Numeral} (h : numeral? cs = some (n, rest)) :
    rest.length < cs.length := by
  unfold numeral? at h
  split at h
  · cases h
  · next hw =>
    split at h
    · cases h
    · next hf =>
      split at h
      · cases h
      · next he =>
        cases h
        have := length_whole? hw
        have := length_fraction? hf
        have := length_exponent? he
        have := length_getD_after?_le ['-'] cs
        omega

theorem word_ne_nil {m : List Char × Lexeme} (h : m ∈ words) : m.1 ≠ [] := by
  simp only [words, List.mem_cons, List.not_mem_nil, or_false] at h
  rcases h with rfl | rfl | rfl | rfl | rfl | rfl | rfl | rfl | rfl <;> simp

theorem length_lexeme? {cs rest : List Char} {l : Lexeme} (h : lexeme? cs = some (l, rest)) :
    rest.length < cs.length := by
  simp only [lexeme?, Option.orElse_eq_orElse, Option.orElse_eq_or, Option.or_eq_some_iff] at h
  rcases h with h | ⟨_, h | ⟨_, h⟩⟩
  · obtain ⟨⟨text, l'⟩, hm, h⟩ := List.exists_of_findSome?_eq_some h
    obtain ⟨rest', ha, he⟩ := Option.map_eq_some_iff.mp h
    cases he
    have : 0 < text.length := List.length_pos_iff.mpr (word_ne_nil hm)
    rw [← append_of_after? ha, List.length_append]
    omega
  · simp only [string?, Option.bind_eq_bind, Option.bind_eq_some_iff] at h
    obtain ⟨more, ha, ⟨ps, rest'⟩, hp, h⟩ := h
    cases h
    rw [← append_of_after? ha]
    exact Nat.lt_succ_of_lt (length_pieces? hp)
  · obtain ⟨⟨n, rest'⟩, hn, he⟩ := Option.map_eq_some_iff.mp h
    cases he
    exact length_numeral? hn

end ValueSyntax.Json
