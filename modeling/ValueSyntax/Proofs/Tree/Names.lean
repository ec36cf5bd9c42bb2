import ValueSyntax.Proofs.Tree.Ambiguity
import ValueSyntax.Proofs.Tree.Misprints

namespace ValueSyntax

open Token

/-- The name of a data type: a name, maybe with a pair of parentheses. -/
def IsTypeName (name : List Char) : Prop :=
  ∃ inner, IsName inner ∧ (name = inner ∨ name = inner ++ ['(', ')'])

theorem IsTypeName.isReferenceName {name : List Char} (h : IsTypeName name) :
    IsReferenceName name :=
  let ⟨inner, hinner, hname⟩ := h
  ⟨inner, hinner, Or.inr hname⟩

namespace Tree

/-- The tree refers to the data type. -/
def Mentions (t : Tree) (name : String) : Prop :=
  ∃ range, .reference name range false ∈ t.subtrees

variable {name : String} {range : Option Range} {property : Bool}

theorem Mentions.of_subtrees {t u : Tree} (h : u.Mentions name)
    (hsub : ∀ v ∈ u.subtrees, v ∈ t.subtrees) : t.Mentions name :=
  let ⟨range, hmem⟩ := h
  ⟨range, hsub _ hmem⟩

theorem mentions_reference : Mentions (reference name range false) name :=
  ⟨range, by simp [subtrees]⟩

theorem Mentions.joined {c : Connective} {operands : List Tree} {t : Tree} (ht : t ∈ operands)
    (h : t.Mentions name) : Mentions (joined c operands) name := by
  refine h.of_subtrees fun v hv => ?_
  rw [subtrees, subtreesEach_eq_flatMap]
  exact List.mem_cons_of_mem _ (List.mem_flatMap.mpr ⟨t, ht, hv⟩)

theorem Mentions.group {inner : Tree} {bracketed : Bool} (h : inner.Mentions name) :
    Mentions (group inner bracketed) name :=
  h.of_subtrees fun v hv => by simp [subtrees, hv]

theorem Mentions.multiplied {inner : Tree} {m : Multiplier} (h : inner.Mentions name) :
    Mentions (multiplied inner m) name :=
  h.of_subtrees fun v hv => by simp [subtrees, hv]

theorem Derives.exists_leaf_of_reference {phrase : Phrase} {ts : List Token} {t : Tree}
    (h : Derives phrase ts t) (hr : reference name range property ∈ t.subtrees) :
    ∃ tok ∈ ts, Leaf tok (reference name range property) := by
  induction h with
  | @leaf tok t h =>
    have hleaf := ofLeaf?_eq_ok_iff.mp h
    have hself : t.subtrees = [t] := by cases hleaf <;> rfl
    rw [hself, List.mem_singleton] at hr
    exact ⟨tok, List.mem_singleton_self _, hr ▸ hleaf⟩
  | brackets _ _ _ ih =>
    rw [subtrees] at hr
    obtain ⟨tok, htok, hleaf⟩ := ih (by simpa using hr)
    exact ⟨tok, by simp [htok], hleaf⟩
  | parentheses _ _ _ ih =>
    rw [subtrees] at hr
    obtain ⟨tok, htok, hleaf⟩ := ih (by simpa using hr)
    exact ⟨tok, by simp [htok], hleaf⟩
  | emptyFunction => simp [subtrees, noArguments, subtreesEach] at hr
  | function _ _ _ ih =>
    rw [subtrees] at hr
    obtain ⟨tok, htok, hleaf⟩ := ih (by simpa using hr)
    exact ⟨tok, by simp [htok], hleaf⟩
  | once _ ih => exact ih hr
  | multiplied _ _ _ ih =>
    rw [subtrees] at hr
    obtain ⟨tok, htok, hleaf⟩ := ih (by simpa using hr)
    exact ⟨tok, List.mem_append_left _ htok, hleaf⟩
  | single _ ih => exact ih hr
  | joined _ _ hts ih =>
    rw [subtrees, subtreesEach_eq_flatMap] at hr
    have hr := List.mem_of_ne_of_mem (by simp) hr
    obtain ⟨t, ht, hr⟩ := List.mem_flatMap.mp hr
    obtain ⟨p, hp, rfl⟩ := List.mem_map.mp ht
    obtain ⟨tok, htok, hleaf⟩ := ih p hp hr
    exact ⟨tok, hts.mem (List.mem_map_of_mem hp) htok, hleaf⟩

theorem isTypeName_of_leaf {tok : Token} (hformed : Formed tok.kind tok.value.toList)
    (h : Leaf tok (reference name range false)) : IsTypeName name.toList := by
  have hkind : tok.kind = .reference := by cases h with | reference h => exact h
  have htree := (ofReference_eq_ok_iff hkind).mpr h
  obtain ⟨written, constraint, hvalue, hwritten, hconstraint⟩ :=
    exists_of_formed_reference (hkind ▸ hformed)
  -- Read from its token, the reference has the name that is written there.
  have hnamed : ∃ range', reference name range false = referenceNamed written range' := by
    rcases hconstraint with rfl | ⟨blanks, inner, rfl, hblanks, _⟩
    · rw [List.append_nil] at hvalue
      rw [ofReference_of_name hwritten hvalue] at htree
      exact ⟨none, (Except.ok.inj htree).symm⟩
    · rw [ofReference_of_range hwritten hblanks hvalue] at htree
      split at htree
      · exact ⟨_, (Except.ok.inj htree).symm⟩
      · cases htree
  obtain ⟨range', hnamed⟩ := hnamed
  unfold referenceNamed at hnamed
  split at hnamed
  · cases hnamed
  · next hquoted =>
    cases hnamed
    rw [String.toList_ofList]
    obtain ⟨inner, hinner, rfl | hname⟩ := hwritten
    · exact absurd (isQuotedName_iff.mpr ⟨inner, rfl⟩) hquoted
    · exact ⟨inner, hinner, hname⟩

theorem Mentions.isTypeName {text : String} {t : Tree} (ht : ofText text = .ok t)
    (h : t.Mentions name) : IsTypeName name.toList := by
  obtain ⟨range, hr⟩ := h
  obtain ⟨tokens, hscan, hderives⟩ := ofText_eq_ok_iff.mp ht
  obtain ⟨tok, htok, hleaf⟩ := hderives.exists_leaf_of_reference hr
  have hend := List.mem_takeWhile_imp htok
  refine isTypeName_of_leaf (formed_of_scanFrom hscan (List.takeWhile_subset _ htok) ?_) hleaf
  simpa using hend

end Tree

end ValueSyntax
