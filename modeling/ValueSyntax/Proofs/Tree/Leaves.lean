import ValueSyntax.Proofs.Tree.Pieces

namespace ValueSyntax.Tree

open Text Token

/-- The characters of references' names, without brackets and blanks. -/
def isReferenceChar (c : Char) : Bool := isNameChar c || c = '\'' || c = '(' || c = ')'

theorem lt_128_of_isReferenceChar {c : Char} (h : isReferenceChar c) : c.toNat < 128 := by
  simp only [isReferenceChar, isNameChar, Bool.or_eq_true, decide_eq_true_eq] at h
  rcases h with ((((h | rfl) | rfl) | rfl) | rfl) | rfl
  · exact lt_128_of_isAlphanum h
  all_goals decide

theorem isBlank_of_isReferenceChar {c : Char} (h : isReferenceChar c) : isBlank c = false := by
  have := ascii_imp isReferenceChar (!isBlank ·) (by decide +kernel)
    (lt_128_of_isReferenceChar h) h
  simpa using this

theorem isNameChar_of_mem_name {name : List Char} {c : Char} (h : IsName name) (hc : c ∈ name) :
    isNameChar c := by
  obtain ⟨dashes, d, tail, rfl, hdashes, _, hd, htail⟩ := h
  rcases List.mem_append.mp hc with hc | hc
  · rw [hdashes c hc]
    decide
  · rcases List.mem_cons.mp hc with rfl | hc
    · simp only [isNameStart, Bool.or_eq_true] at hd
      rcases hd with hd | hd <;> simp [isNameChar, Char.isAlphanum, hd]
    · exact htail c hc

theorem isReferenceChar_of_mem {name : List Char} {c : Char} (h : IsReferenceName name)
    (hc : c ∈ name) : isReferenceChar c := by
  obtain ⟨inner, hinner, hname⟩ := h
  have hinner : c ∈ inner → isReferenceChar c := fun hc => by
    simp [isReferenceChar, isNameChar_of_mem_name hinner hc]
  have hmarks : c = '\'' ∨ c = '(' ∨ c = ')' → isReferenceChar c := by
    rintro (rfl | rfl | rfl) <;> decide
  grind

theorem trim_referenceName {name blanks : List Char} (h : IsReferenceName name)
    (hblanks : ∀ c ∈ blanks, isBlank c) : trim (name ++ blanks) = name := by
  have hstop : Stops isBlank name.reverse := by
    intro c hc
    rw [List.head?_reverse] at hc
    exact isBlank_of_isReferenceChar (isReferenceChar_of_mem h (List.mem_of_mem_getLast? hc))
  have hhead : Stops isBlank (name ++ blanks) := by
    obtain ⟨d, tail, hd⟩ := List.exists_cons_of_ne_nil h.ne_nil
    intro c hc
    rw [hd] at hc
    obtain rfl : d = c := Option.some.inj hc
    exact isBlank_of_isReferenceChar (isReferenceChar_of_mem h (hd ▸ List.mem_cons_self ..))
  rw [trim, dropWhile_of_stops hhead, List.reverse_append,
    dropWhile_run (by simpa using hblanks) hstop, List.reverse_reverse]

def referenceNamed (name : List Char) (range : Option Range) : Tree :=
  if isQuotedName name then reference (String.ofList name.tail.dropLast) range true
  else reference (String.ofList name) range false

theorem bracket_not_mem_name {name : List Char} (h : IsReferenceName name) : '[' ∉ name :=
  fun hc => absurd (isReferenceChar_of_mem h hc) (by decide)

theorem ofReference_of_name {t : Token} {name : List Char} (hname : IsReferenceName name)
    (ht : t.value.toList = name) : ofReference t = .ok (referenceNamed name none) := by
  have hall := all_ne_of_not_mem (bracket_not_mem_name hname)
  have htake := takeWhile_run hall (stops_nil _)
  have hdrop := dropWhile_run hall (stops_nil _)
  have htrim : trim (name ++ []) = name := trim_referenceName hname (by simp)
  rw [List.append_nil] at htake hdrop htrim
  simp only [ofReference, ht, htake, hdrop, htrim, if_true]
  rfl

theorem ofReference_of_range {t : Token} {name blanks inner : List Char}
    (hname : IsReferenceName name) (hblanks : ∀ c ∈ blanks, isBlank c)
    (ht : t.value.toList = name ++ (blanks ++ '[' :: inner ++ [']'])) :
    ofReference t =
      match Range.read? ('[' :: inner ++ [']']) with
      | some range => .ok (referenceNamed name (some range))
      | none => .error ⟨.invalidRange (String.ofList ('[' :: inner ++ [']'])), t.start⟩ := by
  have hall : ∀ c ∈ name ++ blanks, decide (c ≠ '[') := by
    apply all_ne_of_not_mem
    rw [List.mem_append, not_or]
    exact ⟨bracket_not_mem_name hname, fun hc => absurd (hblanks _ hc) (by decide)⟩
  have hstop : Stops (· ≠ '[') ('[' :: inner ++ [']']) := stops_cons.mpr (by decide)
  have hassoc : name ++ (blanks ++ '[' :: inner ++ [']']) =
      name ++ blanks ++ ('[' :: inner ++ [']']) := by simp
  have hne : '[' :: inner ++ [']'] ≠ [] := List.cons_ne_nil _ _
  simp only [ofReference, ht, hassoc, takeWhile_run hall hstop, dropWhile_run hall hstop,
    trim_referenceName hname hblanks, hne, if_false]
  rfl

theorem pieces_referenceNamed (name : List Char) (range : Option Range) :
    (referenceNamed name range).pieces = [.token .reference (name ++ constraintChars range)] := by
  unfold referenceNamed
  split
  · next hquoted =>
    have hname : '\'' :: name.tail.dropLast ++ ['\''] = name := by
      simp only [isQuotedName, Bool.and_eq_true, decide_eq_true_eq] at hquoted
      obtain ⟨⟨hlen, hhead⟩, hlast⟩ := hquoted
      match name with
      | c :: d :: more =>
        obtain rfl : c = '\'' := Option.some.inj hhead
        rw [List.getLast?_cons_cons] at hlast
        obtain ⟨inner, hinner⟩ := List.getLast?_eq_some_iff.mp hlast
        rw [List.tail_cons, hinner, List.dropLast_concat, List.cons_append]
    rw [pieces, referenceChars, if_pos rfl, String.toList_ofList, hname]
  · rw [pieces, referenceChars, if_neg (by decide), String.toList_ofList]

/-- The tree has one token, and it is what this token stands for. -/
structure IsLeaf (t : Tree) (kind : Kind) (value : List Char) : Prop where
  pieces : t.pieces = [.token kind value]
  formed : Formed kind value
  startsTerm : kind.startsTerm
  ofLeaf? : ∀ tok : Token, tok.key = (kind, value) → ofLeaf? tok = some (.ok t)

theorem eq_of_key {tok : Token} {kind : Kind} {value : String}
    (h : tok.key = (kind, value.toList)) : tok.kind = kind ∧ tok.value = value :=
  ⟨congrArg Prod.fst h, String.toList_injective (congrArg Prod.snd h)⟩

theorem isLeaf_keyword {text : String} (h : Formed .identifier text.toList) :
    IsLeaf (keyword text) .identifier text.toList := by
  refine ⟨rfl, h, rfl, fun tok htok => ?_⟩
  obtain ⟨hkind, rfl⟩ := eq_of_key htok
  simp [ofLeaf?, hkind]

theorem isLeaf_string {text : String} (h : Formed .string text.toList) :
    IsLeaf (symbol text true) .string text.toList := by
  refine ⟨rfl, h, rfl, fun tok htok => ?_⟩
  obtain ⟨hkind, rfl⟩ := eq_of_key htok
  simp [ofLeaf?, hkind]

theorem isLeaf_comma {text : String} (h : Formed .comma text.toList) :
    IsLeaf (symbol text false) .comma text.toList := by
  have htext : text ≠ "/" := by
    rintro rfl
    cases h with
    | mark h => exact absurd h (by decide)
  refine ⟨by simp [Tree.pieces, htext], h, rfl, fun tok htok => ?_⟩
  obtain ⟨hkind, rfl⟩ := eq_of_key htok
  simp [ofLeaf?, hkind]

theorem isLeaf_slash {text : String} (h : Formed .slash text.toList) :
    IsLeaf (symbol text false) .slash text.toList := by
  have htext : text = "/" := by
    cases h with
    | mark h =>
      have hslash : ∀ m ∈ marks, m.2 = .slash → m.1 = ['/'] := by decide
      exact String.toList_injective (hslash _ h rfl)
  refine ⟨by simp [Tree.pieces, htext], h, rfl, fun tok htok => ?_⟩
  obtain ⟨hkind, rfl⟩ := eq_of_key htok
  simp [ofLeaf?, hkind]

theorem ofNumber_congr {s t : Token} {leaf : Tree} (h : s.value = t.value)
    (hs : ofNumber s = .ok leaf) : ofNumber t = .ok leaf := by
  unfold ofNumber at hs ⊢
  dsimp only at hs ⊢
  rw [h] at hs
  split at hs
  · cases hs
  · next hread =>
    rw [if_neg hread]
    exact hs

theorem pieces_of_ofNumber {tok : Token} {t : Tree} (h : ofNumber tok = .ok t) :
    t.pieces = [.token .number tok.value.toList] := by
  unfold ofNumber at h
  dsimp only at h
  split at h
  · cases h
  · cases h
    have happend : tok.value.toList.takeWhile (!startsUnit ·) ++
        tok.value.toList.dropWhile (!startsUnit ·) = tok.value.toList :=
      List.takeWhile_append_dropWhile
    rw [pieces, String.toList_ofList]
    split
    · next hunit =>
      rw [hunit, List.append_nil] at happend
      simp [happend]
    · simp

theorem isLeaf_number {tok : Token} {t : Tree} (hformed : Formed .number tok.value.toList)
    (h : ofNumber tok = .ok t) : IsLeaf t .number tok.value.toList := by
  refine ⟨pieces_of_ofNumber h, hformed, rfl, fun tok' htok => ?_⟩
  obtain ⟨hkind, hvalue⟩ := eq_of_key htok
  simp [ofLeaf?, hkind, ofNumber_congr hvalue.symm h]

theorem exists_of_formed_reference {value : List Char} (h : Formed .reference value) :
    ∃ name range, value = name ++ range ∧ IsReferenceName name ∧ IsConstraint range := by
  cases h with
  | reference hname hrange => exact ⟨_, _, rfl, hname, hrange⟩
  | mark h =>
    have hmarks : ∀ m ∈ marks, m.2 ≠ .reference := by decide
    exact absurd rfl (hmarks _ h)

theorem not_bracket_of_bounds (r : Range) : ']' ∉ r.minChars ++ ',' :: r.maxChars := by
  intro hmem
  rcases List.mem_append.mp hmem with hmem | hmem
  · exact absurd (Range.isBoundChar_of_mem_minChars hmem) (by decide)
  · rcases List.mem_cons.mp hmem with hmem | hmem
    · exact absurd hmem (by decide)
    · exact absurd (Range.isBoundChar_of_mem_maxChars hmem) (by decide)

theorem isLeaf_referenceNamed {name : List Char} {range : Option Range}
    (hname : IsReferenceName name) (hrange : ∀ r ∈ range, r.Valid) :
    IsLeaf (referenceNamed name range) .reference (name ++ constraintChars range) := by
  refine ⟨pieces_referenceNamed name range, ?_, rfl, fun tok htok => ?_⟩
  · refine .reference hname ?_
    cases range with
    | none => exact Or.inl rfl
    | some r =>
      exact Or.inr ⟨[' '], _, rfl, List.all_eq_true.mp (by decide), not_bracket_of_bounds r⟩
  · obtain ⟨hkind, hvalue⟩ : tok.kind = .reference ∧
        tok.value.toList = name ++ constraintChars range :=
      ⟨congrArg Prod.fst htok, congrArg Prod.snd htok⟩
    have hread : ofReference tok = .ok (referenceNamed name range) := by
      cases range with
      | none =>
        rw [constraintChars, List.append_nil] at hvalue
        exact ofReference_of_name hname hvalue
      | some r =>
        have hblank : ∀ c ∈ [' '], isBlank c := List.all_eq_true.mp (by decide)
        have hchars := Range.read?_chars (hrange r rfl)
        have hvalue : tok.value.toList = name ++
            ([' '] ++ '[' :: (r.minChars ++ ',' :: r.maxChars) ++ [']']) := hvalue
        rw [Range.chars_eq] at hchars
        rw [ofReference_of_range hname hblank hvalue, hchars]
    simp [ofLeaf?, hkind, hread]

theorem isLeaf_reference {tok : Token} {t : Tree} (hformed : Formed .reference tok.value.toList)
    (h : ofReference tok = .ok t) : ∃ value, IsLeaf t .reference value := by
  obtain ⟨name, range, hvalue, hname, hrange⟩ := exists_of_formed_reference hformed
  rcases hrange with rfl | ⟨blanks, inner, rfl, hblanks, _⟩
  · rw [List.append_nil] at hvalue
    rw [ofReference_of_name hname hvalue] at h
    cases h
    exact ⟨_, isLeaf_referenceNamed hname (by simp)⟩
  · rw [ofReference_of_range hname hblanks hvalue] at h
    split at h
    · next r hread =>
      cases h
      refine ⟨_, isLeaf_referenceNamed hname fun r' hr => ?_⟩
      cases hr
      exact Range.valid_of_read? hread
    · cases h

/-- The tree of a token has one token in its canonical text, and this one has the same tree. -/
theorem isLeaf_of_ofLeaf? {tok : Token} {t : Tree} (hformed : Formed tok.kind tok.value.toList)
    (h : Tree.ofLeaf? tok = some (.ok t)) : ∃ kind value, IsLeaf t kind value := by
  unfold Tree.ofLeaf? at h
  split at h
  · next hkind =>
    cases h
    exact ⟨_, _, isLeaf_keyword (hkind ▸ hformed)⟩
  · next hkind =>
    cases h
    exact ⟨_, _, isLeaf_string (hkind ▸ hformed)⟩
  · next hkind =>
    cases h
    exact ⟨_, _, isLeaf_comma (hkind ▸ hformed)⟩
  · next hkind =>
    cases h
    exact ⟨_, _, isLeaf_slash (hkind ▸ hformed)⟩
  · next hkind =>
    obtain ⟨value, hleaf⟩ := isLeaf_reference (hkind ▸ hformed) (Option.some.inj h)
    exact ⟨_, _, hleaf⟩
  · next hkind => exact ⟨_, _, isLeaf_number (hkind ▸ hformed) (Option.some.inj h)⟩
  · cases h

end ValueSyntax.Tree
