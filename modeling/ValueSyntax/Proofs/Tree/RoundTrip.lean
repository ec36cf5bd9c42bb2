import ValueSyntax.Proofs.Tree.Same

namespace ValueSyntax

open Token

namespace Tree

theorem ofText_of_repeated {text : String} {tokens : List Token} {t : Tree}
    (hscan : Token.scan text = .ok tokens)
    (h : Derives .repeated (tokens.takeWhile (·.kind ≠ .endMark)) t) : ofText text = .ok t :=
  ofText_eq_ok_iff.mpr ⟨tokens, hscan, .single (.single (.single (.single h)))⟩

theorem Written.of_text {text : String} {t : Tree} (h : ofText text = .ok t) :
    Written (.level .oneOf) t := by
  obtain ⟨tokens, hscan, hderives⟩ := ofText_eq_ok_iff.mp h
  apply hderives.written
  intro tok htok
  have hend := List.mem_takeWhile_imp htok
  exact formed_of_scanFrom hscan (List.takeWhile_subset _ htok) (by simpa using hend)

theorem Written.scan_text {phrase : Phrase} {t : Tree} (h : Written phrase t) :
    ∃ tokens, Token.scan t.text = .ok tokens ∧
      (tokens.takeWhile (·.kind ≠ .endMark)).map key = keysOf t.pieces := by
  have hspaced : Spaced t.pieces [] := h.spaced (Text.stops_nil _)
  obtain ⟨tokens, stop, hscan, hkeys⟩ := hspaced.scans.exists_scanFrom 0
  refine ⟨tokens ++ [endAt stop], ?_, ?_⟩
  · rw [Token.scan, text, String.toList_ofList, ← textOf_pieces]
    exact hscan
  · have hbody : ∀ tok ∈ tokens, tok.kind ≠ .endMark := fun tok htok =>
      hspaced.scans.ne_endMark tok.key (hkeys ▸ List.mem_map_of_mem htok)
    rw [takeWhile_ne_endMark rfl hbody, hkeys]

/-- A definition in which nothing is misprinted is what its canonical text stands for. -/
theorem ofText_text {text : String} {t : Tree} (h : ofText text = .ok t) (hprint : t.Printable) :
    ofText t.text = .ok t := by
  have hwritten := Written.of_text h
  obtain ⟨tokens, hscan, hkeys⟩ := hwritten.scan_text
  exact ofText_eq_ok_iff.mpr ⟨tokens, hscan, hwritten.rederives hprint _ hkeys⟩

theorem printable_of_ofText_text {text : String} {t u : Tree} (h : ofText text = .ok t)
    (hu : ofText t.text = .ok u) (hsame : t.same u) : t.Printable := by
  obtain ⟨tokens, hscan, hkeys⟩ := (Written.of_text h).scan_text
  obtain ⟨tokens', hscan', hderives⟩ := ofText_eq_ok_iff.mp hu
  rw [hscan] at hscan'
  cases hscan'
  -- The text has the tokens of either tree, since equal trees have the same kinds of tokens.
  have hkinds : (tokens.takeWhile (·.kind ≠ .endMark)).map Token.kind = u.kinds :=
    (map_kind_of_map_key hkeys).trans (kinds_of_same hsame)
  exact printable_of_same hsame (hderives.printable hkinds)

end Tree

/-- The canonical text of a definition without bounds that are not numbers is read, under any name,
as an equal definition, exactly if it nowhere writes counts in braces behind `#` that belong to
another multiplier, and nowhere `!` behind parentheses. -/
theorem reads_canonical_iff {source : Source} {t : Tree} (h : source.tree = .ok t)
    (hnan : ∀ s ∈ t.subtrees, s.hasNan = false) (name : String) :
    (∃ u, Source.tree ⟨name, t.text⟩ = .ok u ∧ t.same u) ↔
      ∀ s ∈ t.subtrees, s.misprinted = false := by
  have htext := Source.tree_eq_ok_iff.mp h
  constructor
  · rintro ⟨u, hu, hsame⟩
    exact Tree.printable_of_ofText_text htext (Source.tree_eq_ok_iff.mp hu) hsame
  · intro hprint
    exact ⟨t, Source.tree_eq_ok_iff.mpr (Tree.ofText_text htext hprint), Tree.same_self hnan⟩

/-- A group in brackets may be followed by `!` and more. -/
theorem reads_canonical_iff_on_group :
    let t : Tree := .multiplied (.multiplied (.group (.keyword "a") true) ⟨1, some 1, .space⟩)
      ⟨0, none, .space⟩
    Source.tree ⟨"a", "[a]!*"⟩ = .ok t ∧ (∀ s ∈ t.subtrees, s.hasNan = false) ∧
      ((∃ u, Source.tree ⟨"b", t.text⟩ = .ok u ∧ t.same u) ↔
        ∀ s ∈ t.subtrees, s.misprinted = false) := by
  have htree : Source.tree ⟨"a", "[a]!*"⟩ = .ok (.multiplied
      (.multiplied (.group (.keyword "a") true) ⟨1, some 1, .space⟩) ⟨0, none, .space⟩) := by decide +kernel
  have hnan : ∀ s ∈ Tree.subtrees (.multiplied
      (.multiplied (.group (.keyword "a") true) ⟨1, some 1, .space⟩) ⟨0, none, .space⟩),
      s.hasNan = false := by decide
  exact ⟨htree, hnan, reads_canonical_iff htree hnan "b"⟩

/-- Twice `a#` is printed as `a#` with counts, which is `a` twice with a comma. -/
theorem hash_takes_counts :
    let t : Tree := .multiplied (.multiplied (.keyword "a") ⟨1, none, .comma⟩) ⟨2, some 2, .space⟩
    let u : Tree := .multiplied (.keyword "a") ⟨2, some 2, .comma⟩
    Source.tree ⟨"a", "a#\x7b1,\x7d\x7b2\x7d"⟩ = .ok t ∧ (∀ s ∈ t.subtrees, s.hasNan = false) ∧
      Source.tree ⟨"a", t.text⟩ = .ok u ∧ t.same u = false := by
  have hone : Number.count32? ['1'] = some 1 := by decide
  have htwo : Number.count32? ['2'] = some 2 := by decide
  refine ⟨Source.tree_eq_ok_iff.mpr ?_, by decide, Source.tree_eq_ok_iff.mpr ?_, by decide⟩
  · have hscan : Token.scan "a#\x7b1,\x7d\x7b2\x7d" = .ok [⟨.identifier, "a", 0, 1⟩,
        ⟨.hash, "#", 1, 2⟩, ⟨.openCurly, "\x7b", 2, 3⟩, ⟨.number, "1", 3, 4⟩, ⟨.comma, ",", 4, 5⟩,
        ⟨.closeCurly, "\x7d", 5, 6⟩, ⟨.openCurly, "\x7b", 6, 7⟩, ⟨.number, "2", 7, 8⟩,
        ⟨.closeCurly, "\x7d", 8, 9⟩, .endAt 9] := by decide +kernel
    apply Tree.ofText_of_repeated hscan
    have hkeyword : Tree.Derives .repeated [⟨.identifier, "a", 0, 1⟩] (.keyword "a") :=
      .once (.leaf rfl)
    have hlist : Tree.Derives .repeated [⟨.identifier, "a", 0, 1⟩, ⟨.hash, "#", 1, 2⟩,
        ⟨.openCurly, "\x7b", 2, 3⟩, ⟨.number, "1", 3, 4⟩, ⟨.comma, ",", 4, 5⟩,
        ⟨.closeCurly, "\x7d", 5, 6⟩] (.multiplied (.keyword "a") ⟨1, none, .comma⟩) :=
      .multiplied hkeyword (.hashCounts rfl (.atLeast rfl rfl hone rfl rfl)) fun h => by
        simp [Tree.EndsInHash] at h
    exact .multiplied hlist (.counts (.exactly rfl rfl htwo rfl)) fun h => by
      simp [Tree.EndsInHash] at h
  · have hscan : Token.scan (Tree.text (.multiplied (.multiplied (.keyword "a") ⟨1, none, .comma⟩)
        ⟨2, some 2, .space⟩)) = .ok [⟨.identifier, "a", 0, 1⟩, ⟨.hash, "#", 1, 2⟩,
        ⟨.openCurly, "\x7b", 2, 3⟩, ⟨.number, "2", 3, 4⟩, ⟨.closeCurly, "\x7d", 4, 5⟩,
        .endAt 5] := by decide +kernel
    apply Tree.ofText_of_repeated hscan
    have hkeyword : Tree.Derives .repeated [⟨.identifier, "a", 0, 1⟩] (.keyword "a") :=
      .once (.leaf rfl)
    exact .multiplied hkeyword (.hashCounts rfl (.exactly rfl rfl htwo rfl)) fun h => by
      simp [Tree.EndsInHash] at h

end ValueSyntax
