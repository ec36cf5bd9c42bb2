import ValueSyntax.Proofs.Resolve.Named
import ValueSyntax.Proofs.Shapes.Aliases

namespace ValueSyntax

variable {k : Catalog} {types types' : List Shape} {declared declared' : List Declared}

/-- Some time in a session, a list that was resolved from texts is normalized to this one. -/
def Catalog.Normalizes (k : Catalog) (declared : List Declared) : Prop :=
  ∃ (types : List Shape) (history : List Request) (s : Session), k.Answers types ∧
    normalize k types (k.sessionAfter history) = .ok declared s

theorem Catalog.parameters_eq_nil_or (k : Catalog) (name : String) :
    k.parameters name = [] ∨ k.parameters name = [.length] := by
  unfold parameters
  split
  · exact Or.inr rfl
  · exact Or.inl rfl

theorem NamesTypes.proper (h : NamesTypes types) :
    ∀ d ∈ (k.declarations types).toList, d.Proper k.parameters := by
  rintro d hd name generics rfl
  obtain ⟨x, hx, hdecl⟩ := Catalog.mem_declarations.mp hd
  obtain ⟨rfl, hname, hgenerics⟩ := Catalog.eq_dataType_of_declaration hdecl
  exact ⟨h name hx, hname, hgenerics⟩

/-- Only `TLength` is taken for a shape that is no alias. -/
theorem Declared.eq_of_taken_eq {d : Declared} {name : String} {generics : List Generic}
    (halias : d.aliasName? = none) (h : d.taken = (named name generics).taken) :
    d = length ∧ name = "TLength" ∧ generics = [] := by
  have hd : d.taken = d := taken_eq_self (by rintro rfl; cases halias)
  rw [hd] at h
  by_cases hname : named name generics = named "TLength" []
  · cases hname
    exact ⟨h, rfl, rfl⟩
  · rw [taken_eq_self hname] at h
    subst h
    cases halias

namespace Catalog.Normalizes

theorem eq_declarations (h : k.Normalizes declared) :
    ∃ types, k.Answers types ∧ declared = (k.declarations types).toList := by
  obtain ⟨types, history, s, htypes, hnormalize⟩ := h
  have hensures := ensures_normalize types (ready_sessionAfter k history)
  exact ⟨types, htypes, (hensures.of_ok hnormalize).2⟩

theorem proper (h : k.Normalizes declared) : ∀ d ∈ declared, d.Proper k.parameters := by
  obtain ⟨types, htypes, rfl⟩ := h.eq_declarations
  exact htypes.namesTypes.proper

theorem contains {name : String} {generics : List Generic} (h : k.Normalizes declared)
    (hd : .named name generics ∈ declared) : k.dataTypes.contains name := by
  obtain ⟨types, htypes, rfl⟩ := h.eq_declarations
  obtain ⟨x, hx, hdecl⟩ := Catalog.mem_declarations.mp hd
  obtain ⟨rfl, hname, -⟩ := Catalog.eq_dataType_of_declaration hdecl
  obtain ⟨r, -, hlists⟩ := htypes.exists_lists
  have hknown := hlists.listed.known name hx
  simpa [isKnownDataType, hname] using hknown

theorem unionText_eq_iff_taken (h : k.Normalizes declared) (h' : k.Normalizes declared') :
    unionText Declared.chars declared = unionText Declared.chars declared' ↔
      declared.map Declared.taken = declared'.map Declared.taken :=
  Declared.unionText_eq_iff_taken k.parameters_eq_nil_or h.proper h'.proper

theorem map_taken (h : k.Normalizes declared)
    (hlength : k.dataTypes.contains "TLength" → k.ReachesLength "TLength") :
    declared.map Declared.taken = declared := by
  have hself : ∀ d ∈ declared, d.taken = d := by
    intro d hd
    apply Declared.taken_eq_self
    rintro rfl
    have hnone := (h.proper _ hd _ _ rfl).2.2
    rw [parameters, if_pos (hlength (h.contains hd))] at hnone
    cases hnone
  rw [List.map_congr_left hself, List.map_id']

end Catalog.Normalizes

/-- Unions of normalized lists are equal exactly if the lists are, with an alias `TLength` without
parameters read as the length. No other alias is written like a shape that is no alias, so the
lists themselves are equal unless there is a data type `TLength` that takes no length. -/
theorem unionText_eq_iff_of_normalizes (h : k.Normalizes declared) (h' : k.Normalizes declared') :
    (unionText Declared.chars declared = unionText Declared.chars declared' ↔
      declared.map Declared.taken = declared'.map Declared.taken) ∧
    (∀ name generics, .named name generics ∈ declared → ∀ d : Declared, d.aliasName? = none →
      d.chars = (Declared.named name generics).chars →
        d = .length ∧ name = "TLength" ∧ generics = []) ∧
    ((k.dataTypes.contains "TLength" → k.ReachesLength "TLength") →
      unionText Declared.chars declared = unionText Declared.chars declared' →
        declared = declared') := by
  refine ⟨h.unionText_eq_iff_taken h', ?_, ?_⟩
  · intro name generics hd d halias hchars
    have hproper : d.Proper k.parameters := by
      rintro name generics rfl
      cases halias
    exact Declared.eq_of_taken_eq halias ((hproper.chars_eq_iff (h.proper _ hd)).mp hchars)
  · intro hlength heq
    rw [← h.map_taken hlength, ← h'.map_taken hlength]
    exact (h.unionText_eq_iff_taken h').mp heq

/-- A keyword under the name of the length's parameter, and a length. -/
def shadowing : Catalog where
  dataTypes := .ofList [("TLength", "auto"), ("size", "<length>")]
  properties := .ofList []

theorem shadowing_normalizes (source : Source) (types : List Shape) (needed : Bool)
    {declared : List Declared}
    (htext : Returns (resolveText shadowing source) (shadowing.sessionAfter []) ⟨types, needed⟩)
    (hnormalize : Returns (normalize shadowing types) (shadowing.sessionAfter []) declared) :
    shadowing.Normalizes declared := by
  obtain ⟨s, hs⟩ := htext
  obtain ⟨s', hs'⟩ := hnormalize
  exact ⟨types, [], s', ⟨[], .text source, _, s, none, nofun, bind_eq_of_ok hs _,
    List.mem_singleton_self _⟩, hs'⟩

theorem unionText_eq_iff_of_normalizes_on_size :
    shadowing.Normalizes [.named "TLength" [], .named "size" [.length]] ∧
    shadowing.Normalizes [.length, .named "size" [.length]] ∧
    unionText Declared.chars [.named "TLength" [], .named "size" [.length]] =
      unionText Declared.chars [.length, .named "size" [.length]] := by
  have h : shadowing.Normalizes [.named "TLength" [], .named "size" [.length]] :=
    shadowing_normalizes ⟨"q", "<size> | <TLength>"⟩ [.dataType "TLength", .dataType "size"] true
      (by decide +kernel) (by decide +kernel)
  have h' : shadowing.Normalizes [.length, .named "size" [.length]] :=
    shadowing_normalizes ⟨"q", "<size> | <length>"⟩ [.dataType "length", .dataType "size"] true
      (by decide +kernel) (by decide +kernel)
  exact ⟨h, h', (unionText_eq_iff_of_normalizes h h').1.mpr (by decide)⟩

/-- The alias of `<TLength>` and the length of `<length>` are written in the same way. -/
theorem alias_written_like_length :
    shadowing.Normalizes [.named "TLength" []] ∧ shadowing.Normalizes [.length] ∧
    unionText Declared.chars [.named "TLength" []] = unionText Declared.chars [.length] ∧
    [Declared.named "TLength" []] ≠ [Declared.length] := by
  refine ⟨?_, ?_, rfl, by decide⟩
  · exact shadowing_normalizes ⟨"q", "<TLength>"⟩ [.dataType "TLength"] false
      (by decide +kernel) (by decide +kernel)
  · exact shadowing_normalizes ⟨"q", "<length>"⟩ [.dataType "length"] true
      (by decide +kernel) (by decide +kernel)

end ValueSyntax
