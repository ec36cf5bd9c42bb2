import ValueSyntax.Proofs.Shapes.Unions
import ValueSyntax.Proofs.Tree.Names
import ValueSyntax.Shape.Builtin

namespace ValueSyntax

open Text Token

theorem IsTypeName.isReferenceChar {name : List Char} (h : IsTypeName name) {c : Char}
    (hc : c ∈ name) : Tree.isReferenceChar c :=
  Tree.isReferenceChar_of_mem h.isReferenceName hc

theorem IsTypeName.ne_nil {name : List Char} (h : IsTypeName name) : name ≠ [] :=
  h.isReferenceName.ne_nil

theorem IsTypeName.exists_start {name : List Char} (h : IsTypeName name) :
    ∃ dashes c tail, name = dashes ++ c :: tail ∧ (∀ d ∈ dashes, d = '-') ∧ isNameStart c := by
  obtain ⟨inner, ⟨dashes, c, tail, rfl, hdashes, -, hc, -⟩, rfl | rfl⟩ := h
  · exact ⟨dashes, c, tail, rfl, hdashes, hc⟩
  · exact ⟨dashes, c, tail ++ ['(', ')'], by simp, hdashes, hc⟩

theorem map_eq_map_congr {α β γ : Type} {f : α → β} {g : α → γ} {l m : List α}
    (h : ∀ a ∈ l, ∀ b ∈ m, f a = f b ↔ g a = g b) : l.map f = m.map f ↔ l.map g = m.map g := by
  induction l generalizing m with
  | nil => simp
  | cons a l ih =>
    cases m with
    | nil => simp
    | cons b m =>
      have hhead := h a List.mem_cons_self b List.mem_cons_self
      have htail := ih fun a ha b hb =>
        h a (List.mem_cons_of_mem _ ha) b (List.mem_cons_of_mem _ hb)
      simp only [List.map_cons, List.cons.injEq, hhead, htail]

namespace Declared

/-- The name and the parameters of an alias, and of the shapes that are written like one. -/
def word? : Declared → Option (String × List Generic)
  | literal _ => none
  | integer _ => none
  | anyString => some ("string", [])
  | anyNumber => some ("number", [])
  | length => some ("TLength", [])
  | named name generics => some (name, generics)

/-- The declaration that the text of a declaration is taken for. -/
def taken : Declared → Declared
  | named name [] => if name = "TLength" then length else named name []
  | d => d

variable {parameters : String → List Generic} {d d' : Declared} {name name' : String}
  {generics generics' : List Generic}

theorem taken_eq_self (h : d ≠ named "TLength" []) : d.taken = d := by
  unfold taken
  split
  · next name =>
    rw [if_neg]
    rintro rfl
    exact h rfl
  · rfl

/-- An alias has a name that texts can have and that needs a definition, and the parameters that
belong to the name. -/
def Proper (parameters : String → List Generic) (d : Declared) : Prop :=
  ∀ name generics, d = named name generics →
    IsTypeName name.toList ∧ Builtin.ofName? name = none ∧ generics = parameters name

theorem chars_taken (d : Declared) : d.taken.chars = d.chars := by
  unfold taken
  split
  · split
    · next h =>
      rw [h]
      rfl
    · rfl
  · rfl

def genericsChars : List Generic → List Char
  | [] => []
  | generics => '<' :: [',', ' '].intercalate (generics.map Generic.chars) ++ ['>']

theorem chars_named (name : String) (generics : List Generic) :
    (named name generics).chars = name.toList ++ genericsChars generics := by
  cases generics with
  | nil => exact (List.append_nil _).symm
  | cons g generics => exact List.append_assoc ..

theorem genericsChars_eq_nil_iff : genericsChars generics = [] ↔ generics = [] := by
  cases generics <;> simp [genericsChars]

theorem stops_genericsChars (generics : List Generic) :
    Stops (· ≠ '<') (genericsChars generics) := by
  cases generics with
  | nil => exact stops_nil _
  | cons _ _ => exact stops_cons.mpr (by decide)

/-- The text of an alias says its name, and whether it has parameters. -/
theorem named_chars_inj (h : IsTypeName name.toList) (h' : IsTypeName name'.toList)
    (heq : (named name generics).chars = (named name' generics').chars) :
    name = name' ∧ (generics = [] ↔ generics' = []) := by
  have hbracket {n : String} (hn : IsTypeName n.toList) : '<' ∉ n.toList :=
    fun hc => absurd (hn.isReferenceChar hc) (by decide)
  rw [chars_named, chars_named] at heq
  obtain ⟨hname, hrest⟩ := run_append_inj (all_ne_of_not_mem (hbracket h))
    (all_ne_of_not_mem (hbracket h')) (stops_genericsChars _) (stops_genericsChars _) heq
  refine ⟨String.toList_injective hname, ?_⟩
  rw [← genericsChars_eq_nil_iff, hrest, genericsChars_eq_nil_iff]

/-- What the first character after any dashes says of a declaration: it is a literal, an integer or
a word. -/
def rankOfText (cs : List Char) : Nat :=
  match cs.dropWhile (· = '-') with
  | [] => 2
  | c :: _ => if c = '"' then 0 else if c.isDigit then 1 else 2

theorem rankOfText_of_dashes {dashes tail : List Char} {c : Char} (hdashes : ∀ d ∈ dashes, d = '-')
    (hc : c ≠ '-') :
    rankOfText (dashes ++ c :: tail) = if c = '"' then 0 else if c.isDigit then 1 else 2 := by
  have hdrop := dropWhile_run (p := (· = '-')) (by simpa using hdashes)
    (stops_cons.mpr (by simpa using hc) : Stops _ (c :: tail))
  rw [rankOfText, hdrop]

theorem rankOfText_integerChars (i : Int) : rankOfText (Number.integerChars i) = 1 := by
  have hdigits : ∀ dashes n, (∀ d ∈ dashes, d = '-') →
      rankOfText (dashes ++ Nat.toDigits 10 n) = 1 := by
    intro dashes n hdashes
    obtain ⟨c, cs, hcs, hc⟩ := Number.exists_toDigits_cons n
    rw [hcs, rankOfText_of_dashes hdashes (Number.ne_of_isDigit hc rfl),
      if_neg (Number.ne_of_isDigit hc rfl), if_pos hc]
  cases i with
  | ofNat n => exact hdigits [] n nofun
  | negSucc n => exact hdigits ['-'] (n + 1) (by simp)

theorem rankOfText_named (h : IsTypeName name.toList) :
    rankOfText (named name generics).chars = 2 := by
  obtain ⟨dashes, c, tail, hname, hdashes, hc⟩ := h.exists_start
  have hword : isWordChar c := by
    simp only [isNameStart, Bool.or_eq_true, decide_eq_true_eq] at hc
    rcases hc with hc | rfl
    · simp [isWordChar, Char.isAlphanum, hc]
    · decide
  have hdigit : c.isDigit = false := by
    have := ascii_imp isNameStart (!·.isDigit) (by decide +kernel) (lt_128_of_isWordChar hword) hc
    simpa using this
  have hquote : c ≠ '"' := by
    rintro rfl
    exact absurd hc (by decide)
  rw [chars_named, hname, List.append_assoc, List.cons_append,
    rankOfText_of_dashes hdashes (isNameStart_ne_dash hc), if_neg hquote, hdigit,
    if_neg Bool.false_ne_true]

theorem word?_eq_none_iff : d.word? = none ↔ d.rank < 2 := by
  cases d <;> simp [word?, rank]

theorem chars_of_word? (h : d.word? = some (name, generics)) :
    d.chars = (named name generics).chars := by
  cases d <;> cases h <;> rfl

theorem Proper.isTypeName (hd : d.Proper parameters) (h : d.word? = some (name, generics)) :
    IsTypeName name.toList := by
  have hletters : ∀ c (cs : List Char), isNameStart c → cs.all isNameChar → IsTypeName (c :: cs) :=
    fun c cs hc hcs =>
      ⟨_, ⟨[], c, cs, rfl, nofun, by decide, hc, List.all_eq_true.mp hcs⟩, Or.inl rfl⟩
  cases d with
  | named name generics =>
    cases h
    exact (hd _ _ rfl).1
  | literal => cases h
  | integer => cases h
  | _ =>
    cases h
    exact hletters _ _ (by decide) (by decide)

theorem Proper.generics_eq (hd : d.Proper parameters) (h : d.word? = some (name, generics)) :
    generics = [] ∨ generics = parameters name := by
  cases d with
  | named name generics =>
    cases h
    exact Or.inr (hd _ _ rfl).2.2
  | literal => cases h
  | integer => cases h
  | _ =>
    cases h
    exact Or.inl rfl

theorem Proper.taken_eq (hd : d.Proper parameters) (h : d.word? = some (name, generics)) :
    d.taken = if name = "string" then anyString else if name = "number" then anyNumber
      else (named name generics).taken := by
  cases d with
  | named name generics =>
    cases h
    have hname := (hd _ _ rfl).2.1
    rw [if_neg (by rintro rfl; cases hname), if_neg (by rintro rfl; cases hname)]
  | literal => cases h
  | integer => cases h
  | _ =>
    cases h
    rfl

theorem Proper.rankOfText_chars (hd : d.Proper parameters) :
    rankOfText d.chars = min d.rank 2 := by
  cases hw : d.word? with
  | some w =>
    rw [chars_of_word? hw, rankOfText_named (hd.isTypeName hw)]
    cases d <;> cases hw <;> rfl
  | none =>
    cases d with
    | literal text => rfl
    | integer value => exact rankOfText_integerChars value
    | _ => cases hw

theorem eq_of_chars_eq_of_rank (hw : d.word? = none) (hrank : d.rank = d'.rank)
    (h : d.chars = d'.chars) : d = d' := by
  cases d with
  | literal text =>
    cases d' with
    | literal text' =>
      have htext := (quotedChars_append_inj (congrArg (· ++ []) h)).1
      rw [String.toList_injective htext]
    | _ => cases hrank
  | integer i =>
    cases d' with
    | integer j => rw [Number.integerChars_injective h]
    | _ => cases hrank
  | _ => cases hw

/-- Two declarations are written in the same way exactly if they are taken for the same. -/
theorem Proper.chars_eq_iff (hd : d.Proper parameters) (hd' : d'.Proper parameters) :
    d.chars = d'.chars ↔ d.taken = d'.taken := by
  constructor
  · intro h
    -- The texts agree on the kind of text. Literals and integers are then read back from theirs,
    -- and words are compared by name and parameters.
    have hrank : min d.rank 2 = min d'.rank 2 := by
      rw [← hd.rankOfText_chars, h, hd'.rankOfText_chars]
    cases hw : d.word? with
    | none =>
      have hlt := word?_eq_none_iff.mp hw
      rw [eq_of_chars_eq_of_rank hw (by omega) h]
    | some w =>
      cases hw' : d'.word? with
      | none =>
        have hlt := word?_eq_none_iff.mp hw'
        rw [eq_of_chars_eq_of_rank hw' (by omega) h.symm]
      | some w' =>
        have hchars := chars_of_word? hw
        rw [h, chars_of_word? hw'] at hchars
        obtain ⟨hname, hnil⟩ := named_chars_inj (hd'.isTypeName hw') (hd.isTypeName hw) hchars
        have hgenerics : w.2 = w'.2 := by
          have := hd.generics_eq hw
          have := hd'.generics_eq hw'
          grind
        rw [hd.taken_eq hw, hd'.taken_eq hw', hname, hgenerics]
  · intro h
    rw [← d.chars_taken, h, d'.chars_taken]

theorem Proper.isAlternative_chars (hd : d.Proper parameters)
    (hone : ∀ name, parameters name = [] ∨ parameters name = [.length]) :
    IsAlternative d.chars := by
  cases hw : d.word? with
  | none =>
    cases d with
    | literal text => exact .quoted _
    | integer value => exact isAlternative_integerChars value
    | _ => cases hw
  | some w =>
    have hname := hd.isTypeName hw
    have hgenerics : (genericsChars w.2).all fun c => decide (c ≠ ' ' ∧ c ≠ '"') := by
      have hcases : w.2 = [] ∨ w.2 = [.length] := by
        have := hd.generics_eq hw
        have := hone w.1
        grind
      rcases hcases with h | h <;> rw [h] <;> decide
    rw [chars_of_word? hw, chars_named]
    refine .of_forall (fun hnil => hname.ne_nil (List.append_eq_nil_iff.mp hnil).1) fun c hc => ?_
    rcases List.mem_append.mp hc with hc | hc
    · have hchar := hname.isReferenceChar hc
      constructor <;> (rintro rfl; exact absurd hchar (by decide))
    · exact of_decide_eq_true (List.all_eq_true.mp hgenerics c hc)

/-- Two unions look alike exactly if their alternatives are taken for the same. -/
theorem unionText_eq_iff_taken {l m : List Declared}
    (hone : ∀ name, parameters name = [] ∨ parameters name = [.length])
    (hl : ∀ d ∈ l, d.Proper parameters) (hm : ∀ d ∈ m, d.Proper parameters) :
    unionText chars l = unionText chars m ↔ l.map taken = m.map taken := by
  rw [unionText_eq_iff (fun d hd => (hl d hd).isAlternative_chars hone)
    fun d hd => (hm d hd).isAlternative_chars hone]
  exact map_eq_map_congr fun d hd d' hd' => (hl d hd).chars_eq_iff (hm d' hd')

end Declared

end ValueSyntax
