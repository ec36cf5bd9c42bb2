import ValueSyntax.Proofs.Resolve.Bookkeeping
import ValueSyntax.Proofs.Tree.Faults
import ValueSyntax.Proofs.Tree.Misprints

namespace ValueSyntax

def Request.source? : Request → Option Source
  | text source => some source
  | parsed source => some source
  | _ => none

/-- The definition is that of an entry, under the name of the entry. -/
def Catalog.Holds (k : Catalog) (source : Source) : Prop :=
  ∃ entry, entry.name = source.name ∧ k.Defines entry source.text

theorem Tree.Lacks.mem_subtrees {k : Catalog} {t : Tree} {c : Connective} (h : t.Lacks k c) :
    .joined c [] ∈ t.subtrees := by
  induction h with
  | own => exact List.mem_cons_self ..
  | joined _ ht _ ih =>
    rw [subtrees, subtreesEach_eq_flatMap]
    exact List.mem_cons_of_mem _ (List.mem_flatMap.mpr ⟨_, ht, ih⟩)
  | group _ ih =>
    rw [subtrees]
    exact List.mem_cons_of_mem _ ih
  | multiplied _ _ ih =>
    rw [subtrees]
    exact List.mem_cons_of_mem _ ih

theorem source_withoutOperands (c : Connective) (referrer : String) :
    (withoutOperands c referrer).source = ⟨referrer, (Tree.joined c []).text⟩ := by
  rw [Tree.text, Tree.chars, Tree.charsEach]
  rfl

theorem withoutOperands_pointsInto (c : Connective) (referrer : String) :
    (withoutOperands c referrer).PointsInto :=
  @Failure.PointsInto.intro _ [] [] rfl rfl

theorem Catalog.EntryFault.read {k : Catalog} {e : Failure} (h : k.EntryFault e) :
    e.source.tree = .error e ∧ k.Holds e.source := by
  obtain ⟨entry, text, hdef, h⟩ := h
  obtain ⟨hsource, -⟩ := Source.placed_of_error h
  rw [hsource]
  exact ⟨h, entry, rfl, hdef⟩

/-- A request that fails has come to a definition that cannot be read, or to a tree that lacks
operands. -/
theorem Request.Fault.read_or_lacks {k : Catalog} {r : Request} {e : Failure} (h : r.Fault k e) :
    (e.source.tree = .error e ∧ (r.source? = some e.source ∨ k.Holds e.source)) ∨
      ∃ t referrer c, r = .tree t referrer ∧ t.Lacks k c ∧ e = withoutOperands c referrer := by
  cases h with
  | entry h => exact Or.inl ⟨h.read.1, Or.inr h.read.2⟩
  | text h =>
    obtain ⟨hsource, -⟩ := Source.placed_of_error h
    exact Or.inl ⟨by rwa [hsource], Or.inl (congrArg some hsource.symm)⟩
  | parsed h =>
    obtain ⟨hsource, -⟩ := Source.placed_of_error h
    exact Or.inl ⟨by rwa [hsource], Or.inl (congrArg some hsource.symm)⟩
  | tree h => exact Or.inr ⟨_, _, _, rfl, h, rfl⟩

/-- A property whose definition refers to another one, which has a bracket too many behind a
character of three bytes. -/
def unbalanced : Catalog where
  dataTypes := .ofList []
  properties := .ofList [("p", "<'q'>"), ("q", "'∞' ]")]

def strayBracket : Failure := ⟨⟨.unbalanced "]", 6⟩, ⟨"q", "'∞' ]"⟩⟩

end ValueSyntax
