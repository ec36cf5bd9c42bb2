import ValueSyntax.Proofs.Resolve.History
import ValueSyntax.Proofs.Resolve.Listed
import ValueSyntax.Proofs.Shapes.Unions

namespace ValueSyntax

open Text Token

theorem IsTypeName.blank_not_mem {name : List Char} (h : IsTypeName name) : ' ' ∉ name :=
  fun hblank => absurd (Tree.isReferenceChar_of_mem h.isReferenceName hblank) (by decide)

/-- All data types in the list have names that texts can have. -/
abbrev NamesTypes (types : List Shape) : Prop := MentionsOnly (IsTypeName ·.toList) types

/-- The request hands over no tree. -/
def Request.IsTextual (r : Request) : Prop := ∀ t referrer, r ≠ .tree t referrer

variable {k k' : Catalog} {types types' : List Shape}

theorem Tree.Closure.isTypeName {t : Tree} {text name : String} (ht : Tree.ofText text = .ok t)
    (h : t.Closure k (.dataType name)) : IsTypeName name.toList := by
  obtain ⟨-, h | ⟨text', u, hu, h⟩⟩ := h.mentions
  · exact h.isTypeName ht
  · exact h.isTypeName hu

theorem Request.Lists.namesTypes {r : Request} (hr : r.IsTextual) (h : r.Lists k types) :
    NamesTypes types := by
  intro name hname
  cases h with
  | settled ht h =>
    obtain ⟨text, ht⟩ | ⟨referrer, hreferrer⟩ := ht
    · exact ((h.mem_iff _).mp hname).isTypeName ht
    · exact absurd hreferrer (hr _ _)
  | single hx => exact absurd (List.mem_singleton.mp hname).symm (hx name)

theorem NamesTypes.isAlternative_chars (h : NamesTypes types) :
    ∀ x ∈ types, IsAlternative x.chars := by
  intro x hx
  refine x.isAlternative_chars ?_
  rintro name rfl
  exact (h name hx).blank_not_mem

/-- Some time in a session, a request that hands over no tree is answered with the list. -/
def Catalog.Answers (k : Catalog) (types : List Shape) : Prop :=
  ∃ (history : List Request) (r : Request) (reply : Reply) (s : Session) (label : Option String),
    r.IsTextual ∧ r.perform k (k.sessionAfter history) = .ok reply s ∧
      (label, types) ∈ reply.types

theorem Catalog.Answers.exists_lists (h : k.Answers types) :
    ∃ r : Request, r.IsTextual ∧ r.Lists k types := by
  obtain ⟨history, r, reply, s, label, hr, hperform, hmem⟩ := h
  have hright := ((ensures_perform r (ready_sessionAfter k history)).of_ok hperform).2
  exact ⟨r, hr, lists_of_typesAfresh hright.types _ hmem⟩

theorem Catalog.Answers.namesTypes (h : k.Answers types) : NamesTypes types :=
  let ⟨_, hr, hlists⟩ := h.exists_lists
  hlists.namesTypes hr

/-- The union of a list that was resolved from texts says what is listed, whatever is quoted in it:
no other list has this union, under no definitions at all. -/
theorem eq_of_unionText_eq (h : k.Answers types) (h' : k'.Answers types')
    (heq : unionText Shape.chars types = unionText Shape.chars types') : types = types' := by
  have hchars := (unionText_eq_iff h.namesTypes.isAlternative_chars
    h'.namesTypes.isAlternative_chars).mp heq
  exact List.map_injective_iff.mpr Shape.chars_injective hchars

def barred : Catalog where
  dataTypes := .ofList [("size", "<length>")]
  properties := .ofList [("p", "<size> | 'a\" | \"b'")]

theorem eq_of_unionText_eq_on_bar : ∃ types types',
    barred.Answers types ∧ Catalog.Answers { barred with properties := .ofList [] } types' ∧
    unionText Shape.chars types = unionText Shape.chars types' ∧ types = types' := by
  have hproperty : Returns (resolveProperty barred "p") (barred.sessionAfter [])
      (some ⟨[.literal "a\" | \"b", .dataType "size"], true⟩) := by decide +kernel
  have htext : Returns
      (resolveText { barred with properties := .ofList [] } ⟨"q", "'a\" | \"b' | <size>"⟩)
      (Catalog.sessionAfter { barred with properties := .ofList [] } [])
      ⟨[.literal "a\" | \"b", .dataType "size"], true⟩ := by decide +kernel
  obtain ⟨s, hs⟩ := hproperty
  obtain ⟨s', hs'⟩ := htext
  have h : barred.Answers [.literal "a\" | \"b", .dataType "size"] :=
    ⟨[], .property "p", _, s, none, nofun, bind_eq_of_ok hs _, List.mem_singleton_self _⟩
  have h' : Catalog.Answers { barred with properties := .ofList [] }
      [.literal "a\" | \"b", .dataType "size"] :=
    ⟨[], .text ⟨"q", "'a\" | \"b' | <size>"⟩, _, s', none, nofun, bind_eq_of_ok hs' _,
      List.mem_singleton_self _⟩
  exact ⟨_, _, h, h', rfl, eq_of_unionText_eq h h' rfl⟩

end ValueSyntax
