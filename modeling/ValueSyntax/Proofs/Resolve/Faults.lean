import ValueSyntax.Proofs.Resolve.Memory

namespace ValueSyntax

open Relation

/-- The definition, or that of a property that is expanded in it, cannot be read. -/
inductive Catalog.Faults (k : Catalog) : Source → Failure → Prop
  | own {source : Source} {e : Failure} (h : source.tree = .error e) : Faults k source e
  | expanded {source : Source} {t : Tree} {name text : String} {e : Failure}
      (ht : Tree.ofText source.text = .ok t) (hn : t.Expands k name)
      (hget : k.properties.get? name = some text) (h : Faults k ⟨name, text⟩ e) :
      Faults k source e

def Catalog.FaultsOf (k : Catalog) (name : String) (e : Failure) : Prop :=
  k.inlines name ∧ ∃ text, k.properties.get? name = some text ∧ k.Faults ⟨name, text⟩ e

/-- The definition of an entry cannot be read. -/
def Catalog.EntryFault (k : Catalog) (e : Failure) : Prop :=
  ∃ entry text, k.Defines entry text ∧ Source.tree ⟨entry.name, text⟩ = .error e

theorem Catalog.Faults.own_or_entry {k : Catalog} {source : Source} {e : Failure}
    (h : k.Faults source e) : source.tree = .error e ∨ k.EntryFault e := by
  induction h with
  | own h => exact Or.inl h
  | @expanded source t name text e _ _ hget _ ih =>
    exact Or.inr (ih.elim (fun h => ⟨.property name, text, hget, h⟩) id)

theorem Catalog.EntryFault.of_faults {k : Catalog} {entry : Entry} {text : String} {e : Failure}
    (hdef : k.Defines entry text) (h : k.Faults ⟨entry.name, text⟩ e) : k.EntryFault e :=
  h.own_or_entry.elim (fun h => ⟨entry, text, hdef, h⟩) id

theorem Catalog.FaultsOf.entryFault {k : Catalog} {name : String} {e : Failure}
    (h : k.FaultsOf name e) : k.EntryFault e := by
  obtain ⟨-, text, hget, h⟩ := h
  have hdef : k.Defines (.property name) text := hget
  exact .of_faults hdef h

theorem Catalog.not_faults_of_readable {k : Catalog} {source : Source} {t : Tree} {e : Failure}
    (ht : Tree.ofText source.text = .ok t)
    (hreadable : ∀ name, t.Expands k name →
      ∀ m, ReflTransGen k.Expands name m → (k.tree? m).isSome) : ¬ k.Faults source e := by
  intro h
  induction h generalizing t with
  | own h => cases h.symm.trans (Source.tree_eq_ok_iff.mpr ht)
  | @expanded source t' name text e ht' hn hget _ ih =>
    cases ht.symm.trans ht'
    obtain ⟨u, hu⟩ := Option.isSome_iff_exists.mp (hreadable name hn name .refl)
    refine ih (Catalog.ofText_of_tree? hget hu) fun c hc m hm => ?_
    exact hreadable name hn m (.head ⟨u, hu, hc⟩ hm)

theorem Settled.not_faults {k : Catalog} {source : Source} {t : Tree} {types : List Shape}
    {e : Failure} (ht : Tree.ofText source.text = .ok t) (hs : Settled k t types) :
    ¬ k.Faults source e :=
  Catalog.not_faults_of_readable ht hs.readable

theorem Settled.not_faultsOf {k : Catalog} {t : Tree} {types : List Shape} {name : String}
    {e : Failure} (hs : Settled k t types) (hn : t.Expands k name) : ¬ k.FaultsOf name e := by
  rintro ⟨-, text, hget, h⟩
  obtain ⟨u, hu⟩ := Option.isSome_iff_exists.mp (hs.readable name hn name .refl)
  have ht : Tree.ofText text = .ok u := Catalog.ofText_of_tree? hget hu
  refine Catalog.not_faults_of_readable ht (fun c hc m hm => ?_) h
  exact hs.readable name hn m (.head ⟨u, hu, hc⟩ hm)

theorem not_faults_of_definitionAfresh {k : Catalog} {name text : String} {types : List Shape}
    {e : Failure} (hget : k.properties.get? name = some text)
    (h : definitionAfresh k name text = .ok types) : ¬ k.Faults ⟨name, text⟩ e := by
  obtain ⟨t, ht, hsettled⟩ := settled_of_definitionAfresh hget h
  exact hsettled.not_faults ht

theorem not_faults_of_sourceAfresh {k : Catalog} {source : Source} {types : List Shape}
    {e : Failure} (h : sourceAfresh k (propertyAfresh k []) source = .ok types) :
    ¬ k.Faults source e := by
  obtain ⟨t, ht, hsettled⟩ := settled_of_sourceAfresh h
  exact hsettled.not_faults ht

end ValueSyntax
