import Mathlib.Data.List.Forall2
import ValueSyntax.Proofs.Resolve.References

namespace ValueSyntax

open Shapes

theorem exists_of_forall₂ {α β : Type} {R : α → β → Prop} {l : List α} {m : List β}
    (h : List.Forall₂ R l m) : ∀ a ∈ l, ∃ b ∈ m, R a b := by
  induction h with
  | nil => exact nofun
  | @cons a b l m hab _ ih =>
    refine List.forall_mem_cons.mpr ⟨⟨b, List.mem_cons_self .., hab⟩, fun a' ha' => ?_⟩
    obtain ⟨b', hb', hab'⟩ := ih a' ha'
    exact ⟨b', List.mem_cons_of_mem _ hb', hab'⟩

/-- A set of shapes is put together from a tree's own shapes and from values of the properties
that it expands. -/
structure Gathers (k : Catalog) (t : Tree) (value : String → Shapes → Prop) (s : Shapes) :
    Prop where
  own : ∀ x ∈ t.own k, x ∈ s
  bounded : ∀ x ∈ s, x ∈ t.own k ∨ ∃ name v, t.Contributes k name ∧ value name v ∧ x ∈ v
  contributed : ∀ name, t.Contributes k name → ∃ v, value name v ∧ ∀ x ∈ v, x ∈ s
  expanded : ∀ name, t.Expands k name → ∃ v, value name v

namespace Gathers

variable {k : Catalog} {value value' : String → Shapes → Prop}

theorem mono {t : Tree} {s : Shapes} (h : Gathers k t value s)
    (hv : ∀ name v, t.Expands k name → value name v → value' name v) : Gathers k t value' s where
  own := h.own
  bounded x hx := by
    rcases h.bounded x hx with hx | ⟨name, v, hc, hval, hx⟩
    · exact Or.inl hx
    · exact Or.inr ⟨name, v, hc, hv _ _ hc.expands hval, hx⟩
  contributed name hc := by
    obtain ⟨v, hval, hsub⟩ := h.contributed name hc
    exact ⟨v, hv _ _ hc.expands hval, hsub⟩
  expanded name he := by
    obtain ⟨v, hval⟩ := h.expanded name he
    exact ⟨v, hv _ _ he hval⟩

theorem of_own {t : Tree} {s : Shapes} (hs : t.own k = s) (h : ∀ name, ¬ t.Expands k name) :
    Gathers k t value s where
  own _ hx := hs ▸ hx
  bounded _ hx := Or.inl (hs ▸ hx)
  contributed name hc := absurd hc.expands (h name)
  expanded name he := absurd he (h name)

theorem reference {name : String} {range : Option Range} {v : Shapes} (hi : k.inlines name)
    (hv : value name v) : Gathers k (.reference name range true) value v where
  own x hx := by simp [Tree.own, hi] at hx
  bounded _ hx := Or.inr ⟨name, v, .reference hi, hv, hx⟩
  contributed name' hc := by
    cases hc
    exact ⟨v, hv, fun _ hx => hx⟩
  expanded name' he := by
    cases he
    exact ⟨v, hv⟩

theorem group {inner : Tree} {s : Shapes} (h : Gathers k inner value s) :
    Gathers k (.group inner true) value s where
  own x hx := h.own x (by simpa [Tree.own] using hx)
  bounded x hx := by
    rcases h.bounded x hx with hx | ⟨name, v, hc, hv, hx⟩
    · exact Or.inl (by simpa [Tree.own] using hx)
    · exact Or.inr ⟨name, v, .group hc, hv, hx⟩
  contributed name hc := by
    cases hc with
    | group hc => exact h.contributed name hc
  expanded name he := by
    cases he with
    | group he => exact h.expanded name he

theorem multiplied {inner : Tree} {m : Multiplier} {s : Shapes} (hm : m.max = some 1)
    (h : Gathers k inner value s) : Gathers k (.multiplied inner m) value s where
  own x hx := h.own x (by simpa [Tree.own, hm] using hx)
  bounded x hx := by
    rcases h.bounded x hx with hx | ⟨name, v, hc, hv, hx⟩
    · exact Or.inl (by simpa [Tree.own, hm] using hx)
    · exact Or.inr ⟨name, v, .multiplied hm hc, hv, hx⟩
  contributed name hc := by
    cases hc with
    | multiplied _ hc => exact h.contributed name hc
  expanded name he := by
    cases he with
    | multiplied _ he => exact h.expanded name he

abbrev Each (k : Catalog) (value : String → Shapes → Prop) : List Tree → List Shapes → Prop :=
  List.Forall₂ fun t s => Gathers k t value s

theorem joined {c : Connective} {ts : List Tree} {parts : List Shapes}
    (hc : c.enumerates k ts.length) (h : Each k value ts parts) :
    Gathers k (.joined c ts) value (c.combine parts) := by
  have hlen : parts.length = ts.length := h.length_eq.symm
  have hmem : ∀ x, x ∈ c.combine parts ↔ (c.keeps k ts.length ∧ ∃ part ∈ parts, x ∈ part) ∨
      (x = .anyString ∧ c.Widens ts.length) := by
    intro x
    rw [Connective.mem_combine (by rw [hlen]; exact hc), hlen]
  constructor
  · intro x hx
    rcases (Tree.mem_own_joined hc).mp hx with ⟨hk, t, ht, hx⟩ | hx
    · obtain ⟨s, hs, hg⟩ := exists_of_forall₂ h t ht
      exact (hmem x).mpr (Or.inl ⟨hk, s, hs, hg.own x hx⟩)
    · exact (hmem x).mpr (Or.inr hx)
  · intro x hx
    rcases (hmem x).mp hx with ⟨hk, s, hs, hx⟩ | hx
    · obtain ⟨t, ht, hg⟩ := exists_of_forall₂ (List.Forall₂.flip h) s hs
      rcases hg.bounded x hx with hx | ⟨name, v, hcon, hv, hx⟩
      · exact Or.inl ((Tree.mem_own_joined hc).mpr (Or.inl ⟨hk, t, ht, hx⟩))
      · exact Or.inr ⟨name, v, .joined hk ht hcon, hv, hx⟩
    · exact Or.inl ((Tree.mem_own_joined hc).mpr (Or.inr hx))
  · intro name hcon
    cases hcon with
    | joined hk ht hcon =>
      obtain ⟨s, hs, hg⟩ := exists_of_forall₂ h _ ht
      obtain ⟨v, hv, hsub⟩ := hg.contributed name hcon
      exact ⟨v, hv, fun x hx => (hmem x).mpr (Or.inl ⟨hk, s, hs, hsub x hx⟩)⟩
  · intro name he
    cases he with
    | joined _ ht he =>
      obtain ⟨s, _, hg⟩ := exists_of_forall₂ h _ ht
      exact hg.expanded name he

end Gathers

end ValueSyntax
