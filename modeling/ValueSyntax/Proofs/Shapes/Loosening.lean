import ValueSyntax.Proofs.Resolve.Gathering
import ValueSyntax.Resolve.Length

namespace ValueSyntax

open Ascending Shapes

/-- The second has what the first has, and at most any string besides. -/
structure Loosens {γ : Type} [Membership Shape γ] (s t : γ) : Prop where
  subset : ∀ x ∈ s, x ∈ t
  only : ∀ x ∈ t, x ∈ s ∨ x = .anyString

namespace Loosens

variable {γ : Type} [Membership Shape γ] {s t : γ}

theorem refl (s : γ) : Loosens s s := ⟨fun _ hx => hx, fun _ hx => Or.inl hx⟩

theorem mem_iff (h : Loosens s t) {x : Shape} (hx : x ≠ .anyString) : x ∈ s ↔ x ∈ t :=
  ⟨h.subset x, fun ht => (h.only x ht).resolve_right hx⟩

theorem ofList {l m : List Shape} (h : Loosens l m) :
    Loosens (Ascending.ofList l) (Ascending.ofList m) := by
  constructor
  · intro x hx
    exact mem_ofList.mpr (h.subset x (mem_ofList.mp hx))
  · intro x hx
    exact (h.only x (mem_ofList.mp hx)).imp_left mem_ofList.mpr

theorem toList {s t : Shapes} (h : Loosens s t) : Loosens s.toList t.toList := ⟨h.subset, h.only⟩

theorem combine {k : Catalog} {c : Connective} {parts parts' : List Shapes}
    (hc : c.enumerates k parts.length) (h : List.Forall₂ Loosens parts parts') :
    Loosens (c.combine parts) (c.combine parts') := by
  have hlength := h.length_eq
  have hc' : c.enumerates k parts'.length := hlength ▸ hc
  constructor
  · intro x hx
    rw [Connective.mem_combine hc] at hx
    rw [Connective.mem_combine hc', ← hlength]
    refine hx.imp_left fun ⟨hkeeps, part, hpart, hx⟩ => ⟨hkeeps, ?_⟩
    obtain ⟨part', hpart', hloose⟩ := exists_of_forall₂ h part hpart
    exact ⟨part', hpart', hloose.subset x hx⟩
  · intro x hx
    rw [Connective.mem_combine hc', ← hlength] at hx
    rw [Connective.mem_combine hc]
    rcases hx with ⟨hkeeps, part', hpart', hx⟩ | ⟨rfl, -⟩
    · obtain ⟨part, hpart, hloose⟩ := exists_of_forall₂ (List.Forall₂.flip h) part' hpart'
      exact (hloose.only x hx).imp_left fun hx => Or.inl ⟨hkeeps, part, hpart, hx⟩
    · exact Or.inr rfl

end Loosens

/-- The set without any string. -/
def Ascending.strict (s : Shapes) : Shapes :=
  ⟨s.toList.filter (· ≠ .anyString), s.ascending.filter _⟩

theorem dataTypeNames_strict (s : Shapes) :
    dataTypeNames s.strict.toList = dataTypeNames s.toList := by
  unfold dataTypeNames Ascending.strict
  rw [List.filterMap_filter]
  congr 1
  funext x
  cases x <;> rfl

theorem Loosens.dataTypeNames_eq {s t : Shapes} (h : Loosens s t) :
    dataTypeNames s.toList = dataTypeNames t.toList := by
  have hstrict : s.strict = t.strict := by
    refine ext_mem fun x => ?_
    simp only [Ascending.strict, mem_def, List.mem_filter, decide_eq_true_eq, ne_eq]
    refine and_congr_left fun hx => ?_
    exact h.mem_iff hx
  rw [← dataTypeNames_strict, hstrict, dataTypeNames_strict]

/-- A type list and a looser one that is not empty and names the same data types in the same
order. -/
structure FallsBack (l m : List Shape) : Prop extends Loosens l m where
  nonempty : m ≠ []
  names : dataTypeNames l = dataTypeNames m

theorem FallsBack.refl {l : List Shape} (h : l ≠ []) : FallsBack l l := ⟨.refl l, h, rfl⟩

/-- Only where the list is empty does it matter whether it falls back. -/
theorem Loosens.finish {settings settings' : Settings} {s t : Shapes}
    (hoff : settings.fallbackOnEmpty = false) (hon : settings'.fallbackOnEmpty = true)
    (h : Loosens s t) : FallsBack (settings.finish s) (settings'.finish t) := by
  have hempty : settings.finish s = s.toList := by simp [Settings.finish, hoff]
  by_cases ht : t.isEmpty
  · have hfinish : settings'.finish t = [.anyString] := by simp [Settings.finish, ht, hon]
    have hnil : t.toList = [] := List.isEmpty_iff.mp ht
    have hs : s.toList = [] := by
      refine List.eq_nil_iff_forall_not_mem.mpr fun x hx => ?_
      have := h.toList.subset x hx
      rw [hnil] at this
      exact List.not_mem_nil this
    rw [hempty, hfinish, hs]
    exact ⟨⟨nofun, fun x hx => Or.inr (List.mem_singleton.mp hx)⟩, nofun, rfl⟩
  · have hfinish : settings'.finish t = t.toList := by simp [Settings.finish, ht]
    rw [hempty, hfinish]
    exact ⟨h.toList, fun hnil => ht (List.isEmpty_iff.mpr hnil), h.dataTypeNames_eq⟩

end ValueSyntax
