import ValueSyntax.Proofs.Text.Quoting
import ValueSyntax.Shape.Declared

namespace ValueSyntax

open Text

/-- What can stand in a union: a quoted text, or a word without blanks that is not taken for one. -/
inductive IsAlternative : List Char → Prop
  | quoted (cs : List Char) : IsAlternative (quotedChars cs)
  | word {c : Char} {cs : List Char} (hquote : c ≠ '"') (hblank : ' ' ∉ c :: cs) :
      IsAlternative (c :: cs)

theorem IsAlternative.of_forall {cs : List Char} (hne : cs ≠ [])
    (h : ∀ c ∈ cs, c ≠ ' ' ∧ c ≠ '"') : IsAlternative cs := by
  cases cs with
  | nil => exact absurd rfl hne
  | cons c cs => exact .word (h c List.mem_cons_self).2 fun hblank => (h _ hblank).1 rfl

theorem IsAlternative.ne_nil {cs : List Char} (h : IsAlternative cs) : cs ≠ [] := by
  cases h <;> exact List.cons_ne_nil _ _

theorem IsAlternative.append_inj {u v x y : List Char} (hu : IsAlternative u)
    (hv : IsAlternative v) (hx : Stops (· ≠ ' ') x) (hy : Stops (· ≠ ' ') y)
    (h : u ++ x = v ++ y) : u = v ∧ x = y := by
  -- A quoted text goes up to its closing quote, a word up to the next blank.
  cases hu with
  | quoted s =>
    cases hv with
    | quoted t =>
      obtain ⟨rfl, rfl⟩ := quotedChars_append_inj h
      exact ⟨rfl, rfl⟩
    | word hquote => exact absurd (List.cons.inj h).1.symm hquote
  | word hquote hblank =>
    cases hv with
    | quoted t => exact absurd (List.cons.inj h).1 hquote
    | word _ hblank' =>
      exact run_append_inj (all_ne_of_not_mem hblank) (all_ne_of_not_mem hblank') hx hy h

/-- What follows the first alternative. -/
def furtherChars (l : List (List Char)) : List Char := l.flatMap ([' ', '|', ' '] ++ ·)

theorem stops_furtherChars (l : List (List Char)) : Stops (· ≠ ' ') (furtherChars l) := by
  cases l with
  | nil => exact stops_nil _
  | cons u l => exact stops_cons.mpr (by decide)

theorem intercalate_cons_eq (u : List Char) (l : List (List Char)) :
    [' ', '|', ' '].intercalate (u :: l) = u ++ furtherChars l := by
  induction l generalizing u with
  | nil => simp [furtherChars]
  | cons v l ih =>
    rw [List.intercalate_cons_cons, ih, furtherChars, furtherChars, List.flatMap_cons,
      List.append_assoc, List.append_assoc]

section Lists

variable {l m : List (List Char)}

theorem furtherChars_inj (hl : ∀ u ∈ l, IsAlternative u) (hm : ∀ u ∈ m, IsAlternative u)
    (h : furtherChars l = furtherChars m) : l = m := by
  induction l generalizing m with
  | nil =>
    cases m with
    | nil => rfl
    | cons v m => cases h
  | cons u l ih =>
    cases m with
    | nil => cases h
    | cons v m =>
      obtain ⟨hu, hus⟩ := List.forall_mem_cons.mp hl
      obtain ⟨hv, hvs⟩ := List.forall_mem_cons.mp hm
      have h : u ++ furtherChars l = v ++ furtherChars m := by simpa [furtherChars] using h
      obtain ⟨rfl, hrest⟩ := hu.append_inj hv (stops_furtherChars l) (stops_furtherChars m) h
      rw [ih hus hvs hrest]

theorem intercalate_eq_nil_iff (hl : ∀ u ∈ l, IsAlternative u) :
    [' ', '|', ' '].intercalate l = [] ↔ l = [] := by
  cases l with
  | nil => simp
  | cons u l => simp [intercalate_cons_eq, (hl u List.mem_cons_self).ne_nil]

theorem intercalate_inj (hl : ∀ u ∈ l, IsAlternative u) (hm : ∀ u ∈ m, IsAlternative u)
    (h : [' ', '|', ' '].intercalate l = [' ', '|', ' '].intercalate m) : l = m := by
  have hnil : l = [] ↔ m = [] := by
    rw [← intercalate_eq_nil_iff hl, h, intercalate_eq_nil_iff hm]
  cases l with
  | nil => exact (hnil.mp rfl).symm
  | cons u l =>
    cases m with
    | nil => cases hnil.mpr rfl
    | cons v m =>
      rw [intercalate_cons_eq, intercalate_cons_eq] at h
      refine furtherChars_inj hl hm ?_
      simpa [furtherChars] using h

end Lists

/-- A union says how each of its alternatives is written. -/
theorem unionText_eq_iff {α : Type} {chars : α → List Char} {l m : List α}
    (hl : ∀ a ∈ l, IsAlternative (chars a)) (hm : ∀ a ∈ m, IsAlternative (chars a)) :
    unionText chars l = unionText chars m ↔ l.map chars = m.map chars := by
  constructor
  · intro h
    refine intercalate_inj ?_ ?_ (String.ofList_injective h)
    · rw [List.forall_mem_map]
      exact hl
    · rw [List.forall_mem_map]
      exact hm
  · intro h
    rw [unionText, h, unionText]

theorem isAlternative_integerChars (i : Int) : IsAlternative (Number.integerChars i) := by
  have hdigits : ∀ n, ∀ c ∈ Nat.toDigits 10 n, c ≠ ' ' ∧ c ≠ '"' := by
    intro n c hc
    have hdigit := Number.isDigit_of_mem_toDigits hc
    exact ⟨Number.ne_of_isDigit hdigit rfl, Number.ne_of_isDigit hdigit rfl⟩
  cases i with
  | ofNat n => exact .of_forall Nat.toDigits_ne_nil (hdigits n)
  | negSucc n =>
    exact .of_forall (List.cons_ne_nil _ _) (List.forall_mem_cons.mpr ⟨by decide, hdigits _⟩)

namespace Shape

theorem isAlternative_chars {x : Shape} (h : ∀ name, x = .dataType name → ' ' ∉ name.toList) :
    IsAlternative x.chars := by
  cases x with
  | literal text => exact .quoted _
  | integer value => exact isAlternative_integerChars value
  | dataType name =>
    refine .word (by decide) ?_
    simpa using h name rfl
  | _ => exact .word (by decide) (by decide)

def rankOfFirst (c : Char) : Nat :=
  if c = '"' then 0
  else if c = 's' then 2
  else if c = 'n' then 3
  else if c = 'T' then 4
  else if c = '<' then 5
  else 1

theorem rank_of_chars (x : Shape) : ∃ c cs, x.chars = c :: cs ∧ rankOfFirst c = x.rank := by
  have hdigit : ∀ c : Char, c.isDigit → rankOfFirst c = 1 := by
    intro c hc
    have hne : ∀ d : Char, d.isDigit = false → c ≠ d := fun d => Number.ne_of_isDigit hc
    rw [rankOfFirst, if_neg (hne '"' rfl), if_neg (hne 's' rfl), if_neg (hne 'n' rfl),
      if_neg (hne 'T' rfl), if_neg (hne '<' rfl)]
  cases x with
  | integer value =>
    cases value with
    | ofNat n =>
      obtain ⟨c, cs, hcs, hc⟩ := Number.exists_toDigits_cons n
      exact ⟨c, cs, hcs, hdigit c hc⟩
    | negSucc n => exact ⟨_, _, rfl, rfl⟩
  | _ => exact ⟨_, _, rfl, rfl⟩

theorem chars_injective : Function.Injective chars := by
  intro x y h
  obtain ⟨c, cs, hx, hrank⟩ := x.rank_of_chars
  obtain ⟨d, ds, hy, hrank'⟩ := y.rank_of_chars
  have hfirst : c = d := by
    rw [hx, hy] at h
    exact (List.cons.inj h).1
  rw [hfirst, hrank'] at hrank
  cases x <;> cases y <;> try cases hrank
  case literal.literal text text' =>
    have htext := (quotedChars_append_inj (congrArg (· ++ []) h)).1
    rw [String.toList_injective htext]
  case integer.integer i j => rw [Number.integerChars_injective h]
  case dataType.dataType name name' =>
    have hname := List.append_inj_left' (List.cons.inj h).2 rfl
    rw [String.toList_injective hname]
  all_goals rfl

end Shape

end ValueSyntax
