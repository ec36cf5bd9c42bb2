import Mathlib.Data.List.Basic
import ValueSyntax.Proofs.Text.Runs
import ValueSyntax.Proofs.Tree.Recognition

namespace ValueSyntax.Tree

open Text

/-- A name in a reference: in quotes it is a property's. -/
inductive Names : List Char → String → Bool → Prop
  | property (name : List Char) : Names ('\'' :: name ++ ['\'']) (String.ofList name) true
  | dataType {name : List Char} (h : ∀ inner, name ≠ '\'' :: inner ++ ['\'']) :
      Names name (String.ofList name) false

/-- What stands after the name in a reference: nothing, or a range that can be read. -/
inductive Constrains : List Char → Option Range → Prop
  | absent : Constrains [] none
  | range {cs : List Char} {r : Range} (h : Range.read? ('[' :: cs) = some r) :
      Constrains ('[' :: cs) (some r)

/-- The token is a term by itself, with this tree. -/
inductive Leaf (tok : Token) : Tree → Prop
  | keyword (h : tok.kind = .identifier) : Leaf tok (keyword tok.value)
  | string (h : tok.kind = .string) : Leaf tok (symbol tok.value true)
  | separator (h : tok.kind = .comma ∨ tok.kind = .slash) : Leaf tok (symbol tok.value false)
  | reference {name constraint : List Char} {text : String} {property : Bool}
      {range : Option Range} (h : tok.kind = .reference)
      (hval : tok.value.toList = name ++ constraint) (hname : '[' ∉ name)
      (hnames : Names (trim name) text property) (hrange : Constrains constraint range) :
      Leaf tok (reference text range property)
  /-- The value goes up to the first letter or percent sign. -/
  | plainNumber {x : Binary64} (h : tok.kind = .number)
      (hval : ∀ c ∈ tok.value.toList, startsUnit c = false)
      (hread : Binary64.read? tok.value.toList = some x) : Leaf tok (number tok.value none)
  | number {value unit : List Char} {c : Char} {x : Binary64} (h : tok.kind = .number)
      (hval : tok.value.toList = value ++ c :: unit) (hvalue : ∀ d ∈ value, startsUnit d = false)
      (hunit : startsUnit c) (hread : Binary64.read? value = some x) :
      Leaf tok (number (String.ofList value) (some (String.ofList (c :: unit))))

theorem isQuotedName_iff {cs : List Char} :
    isQuotedName cs ↔ ∃ name, cs = '\'' :: name ++ ['\''] := by
  simp only [isQuotedName, Bool.and_eq_true, decide_eq_true_eq]
  constructor
  · rintro ⟨⟨hlen, hhead⟩, hlast⟩
    obtain ⟨tail, rfl⟩ := List.head?_eq_some_iff.mp hhead
    have hne : tail ≠ [] := by
      rintro rfl
      simp at hlen
    refine ⟨tail.dropLast, ?_⟩
    rw [List.getLast?_cons_of_ne_nil hne] at hlast
    rw [List.cons_append, List.dropLast_append_getLast? _ hlast]
  · rintro ⟨name, rfl⟩
    simp [List.getLast?_cons]

theorem exists_names (cs : List Char) : ∃ text property, Names cs text property := by
  by_cases h : ∃ inner, cs = '\'' :: inner ++ ['\'']
  · obtain ⟨inner, rfl⟩ := h
    exact ⟨_, _, .property inner⟩
  · exact ⟨_, _, .dataType fun inner hcs => h ⟨inner, hcs⟩⟩

theorem Names.reference_eq {cs : List Char} {text : String} {property : Bool}
    (h : Names cs text property) (range : Option Range) :
    (if isQuotedName cs then reference (String.ofList cs.tail.dropLast) range true
      else reference (String.ofList cs) range false) = reference text range property := by
  cases h with
  | property name =>
    rw [if_pos (isQuotedName_iff.mpr ⟨name, rfl⟩)]
    simp
  | dataType h =>
    rw [if_neg fun hq => ?_]
    obtain ⟨inner, hcs⟩ := isQuotedName_iff.mp hq
    exact h inner hcs

theorem takeWhile_of_constrains {name constraint : List Char} {range : Option Range}
    (hname : '[' ∉ name) (h : Constrains constraint range) :
    (name ++ constraint).takeWhile (· ≠ '[') = name ∧
      (name ++ constraint).dropWhile (· ≠ '[') = constraint := by
  have hstop : Stops (· ≠ '[') constraint := by
    cases h with
    | absent => exact stops_nil _
    | range => exact stops_cons.mpr (by decide)
  have hall := all_ne_of_not_mem hname
  exact ⟨takeWhile_run hall hstop, dropWhile_run hall hstop⟩

theorem ofReference_eq_ok_iff {tok : Token} {t : Tree} (hk : tok.kind = .reference) :
    ofReference tok = .ok t ↔ Leaf tok t := by
  constructor
  · intro h
    obtain ⟨name, constraint, hval, hall, hstop⟩ := exists_run (· ≠ '[') tok.value.toList
    have hname : '[' ∉ name := fun hmem => by simpa using hall _ hmem
    obtain ⟨text, property, hnames⟩ := exists_names (trim name)
    unfold ofReference at h
    simp only [hval, takeWhile_run hall hstop, dropWhile_run hall hstop, hnames.reference_eq] at h
    cases constraint with
    | nil =>
      cases h
      exact .reference hk hval hname hnames .absent
    | cons c cs =>
      obtain rfl : c = '[' := by simpa using hstop
      cases hread : Range.read? ('[' :: cs) with
      | none => simp [hread] at h
      | some r =>
        simp only [hread, reduceCtorEq, if_false, Except.ok.injEq] at h
        subst h
        exact .reference hk hval hname hnames (.range hread)
  · intro h
    cases h with
    | reference _ hval hname hnames hrange =>
      have hsplit := takeWhile_of_constrains hname hrange
      unfold ofReference
      simp only [hval, hsplit.1, hsplit.2, hnames.reference_eq]
      cases hrange with
      | absent => rfl
      | range hr => simp [hr]
    | _ => simp_all

theorem ofNumber_eq_ok_iff {tok : Token} {t : Tree} (hk : tok.kind = .number) :
    ofNumber tok = .ok t ↔ Leaf tok t := by
  constructor
  · intro h
    -- The unit starts at the first character that can start one.
    obtain ⟨value, unit, hval, hall, hstop⟩ := exists_run (!startsUnit ·) tok.value.toList
    have hvalue : ∀ c ∈ value, startsUnit c = false := by simpa using hall
    unfold ofNumber at h
    simp only [hval, takeWhile_run hall hstop, dropWhile_run hall hstop] at h
    cases hread : Binary64.read? value with
    | none => simp [hread] at h
    | some x =>
      simp only [hread, Option.isNone_some, Bool.false_eq_true, if_false, Except.ok.injEq] at h
      subst h
      cases unit with
      | nil =>
        rw [List.append_nil] at hval
        rw [if_pos rfl, ← hval, String.ofList_toList]
        exact .plainNumber hk (hval ▸ hvalue) (hval ▸ hread)
      | cons c unit =>
        rw [if_neg (List.cons_ne_nil _ _)]
        exact .number hk hval hvalue (by simpa using hstop) hread
  · intro h
    cases h with
    | plainNumber _ hval hread =>
      have hall : ∀ c ∈ tok.value.toList, (!startsUnit c) = true := by simpa using hval
      have htake := takeWhile_run hall (stops_nil _)
      have hdrop := dropWhile_run hall (stops_nil _)
      rw [List.append_nil] at htake hdrop
      simp [ofNumber, htake, hdrop, hread]
    | @number value unit c x _ hval hvalue hunit hread =>
      have hall : ∀ d ∈ value, (!startsUnit d) = true := by simpa using hvalue
      have hstop : Stops (!startsUnit ·) (c :: unit) := stops_cons.mpr (by simp [hunit])
      unfold ofNumber
      simp only [hval, takeWhile_run hall hstop, dropWhile_run hall hstop, hread]
      rfl
    | _ => simp_all

theorem ofLeaf?_eq_ok_iff {tok : Token} {t : Tree} : ofLeaf? tok = some (.ok t) ↔ Leaf tok t := by
  constructor
  · intro h
    unfold ofLeaf? at h
    split at h
    · next hk =>
      cases h
      exact .keyword hk
    · next hk =>
      cases h
      exact .string hk
    · next hk =>
      cases h
      exact .separator (Or.inl hk)
    · next hk =>
      cases h
      exact .separator (Or.inr hk)
    · next hk => exact (ofReference_eq_ok_iff hk).mp (Option.some.inj h)
    · next hk => exact (ofNumber_eq_ok_iff hk).mp (Option.some.inj h)
    · cases h
  · intro h
    cases h with
    | keyword hk => simp [ofLeaf?, hk]
    | string hk => simp [ofLeaf?, hk]
    | separator hk => rcases hk with hk | hk <;> simp [ofLeaf?, hk]
    | reference hk hval hname hnames hrange =>
      simp only [ofLeaf?, hk]
      rw [(ofReference_eq_ok_iff hk).mpr (.reference hk hval hname hnames hrange)]
    | plainNumber hk hval hread =>
      simp only [ofLeaf?, hk]
      rw [(ofNumber_eq_ok_iff hk).mpr (.plainNumber hk hval hread)]
    | number hk hval hvalue hunit hread =>
      simp only [ofLeaf?, hk]
      rw [(ofNumber_eq_ok_iff hk).mpr (.number hk hval hvalue hunit hread)]

theorem Reads.unique {α : Type} {P : α × List Token → Prop} {x : Except Fault { r // P r }}
    {a b : α} {rest rest' : List Token} (h : Reads x a rest) (h' : Reads x b rest') : a = b := by
  obtain ⟨_, h⟩ := h
  obtain ⟨_, h'⟩ := h'
  cases h.symm.trans h'
  rfl

/-- The parser finds one tree only, so the grammar has one only. -/
theorem Derives.unique {phrase : Phrase} {ts : List Token} {t u : Tree}
    (ht : Derives phrase ts t) (hu : Derives phrase ts u) : t = u := by
  have ht := ht.accepts (Token.endAt 0)
  have hu := hu.accepts (Token.endAt 0)
  match phrase with
  | .term => exact (ht []).unique (hu [])
  | .repeated =>
    have hend : ∀ v, Reads (multipliedBy (Token.endAt 0) v []) v [] := fun v =>
      reads_multipliedBy.mpr (Or.inl ⟨rfl, rfl, rfl⟩)
    exact (ht [] (fun _ => rfl) t [] (hend t)).unique (hu [] (fun _ => rfl) u [] (hend u))
  | .level c => exact (ht [] (.of_nil c)).unique (hu [] (.of_nil c))

theorem derives_singleton_iff {tok : Token} {t : Tree} :
    Derives .term [tok] t ↔ Leaf tok t := by
  constructor
  · generalize hts : [tok] = ts
    intro h
    cases h with
    | leaf h =>
      cases hts
      exact ofLeaf?_eq_ok_iff.mp h
    | _ => simp at hts
  · exact fun h => .leaf (ofLeaf?_eq_ok_iff.mpr h)

/-- Tokens are accepted exactly if those before the first end mark are a phrase, and a phrase has
one tree. -/
theorem ofTokens_recognizes (tokens : List Token) :
    (∀ t, ofTokens tokens = .ok t ↔
      Derives (.level .oneOf) (tokens.takeWhile (·.kind ≠ .endMark)) t) ∧
    (∀ tok t, Derives .term [tok] t ↔ Leaf tok t) ∧
    ∀ phrase ts t u, Derives phrase ts t → Derives phrase ts u → t = u :=
  ⟨fun _ => ofTokens_eq_ok_iff, fun _ _ => derives_singleton_iff, fun _ _ _ _ => Derives.unique⟩

/-- `a | [ b ]!`, with more tokens after the first end mark. -/
theorem ofTokens_recognizes_required_group :
    let ts : List Token := [⟨.identifier, "a", 0, 1⟩, ⟨.bar, "|", 2, 3⟩, ⟨.openBracket, "[", 4, 5⟩,
      ⟨.identifier, "b", 6, 7⟩, ⟨.closeBracket, "]", 8, 9⟩, ⟨.exclamation, "!", 9, 10⟩]
    let t : Tree := .joined .oneOf [.keyword "a",
      .multiplied (.group (.keyword "b") true) ⟨1, some 1, .space⟩]
    ofTokens (ts ++ [.endAt 10, ⟨.bar, "|", 10, 11⟩, .endAt 11]) = .ok t ∧
      Derives (.level .oneOf) ts t ∧ ∀ u, Derives (.level .oneOf) ts u → u = t := by
  intro ts t
  have htokens : ofTokens (ts ++ [.endAt 10, ⟨.bar, "|", 10, 11⟩, .endAt 11]) = .ok t := by cbv
  obtain ⟨haccepts, -, hunique⟩ :=
    ofTokens_recognizes (ts ++ [.endAt 10, ⟨.bar, "|", 10, 11⟩, .endAt 11])
  have hderives : Derives (.level .oneOf) ts t := (haccepts t).mp htokens
  exact ⟨htokens, hderives, fun u hu => hunique _ _ _ _ hu hderives⟩

end ValueSyntax.Tree
