import ValueSyntax.Proofs.Resolve.Ensures
import ValueSyntax.Proofs.Resolve.Values

namespace ValueSyntax

open Ascending Shapes Relation

/-- The definition of an entry. The built-in data types have none. -/
def Catalog.Defines (k : Catalog) : Entry → String → Prop
  | .property name, text => k.properties.get? name = some text
  | .dataType name, text => Builtin.ofName? name = none ∧ k.dataTypes.get? name = some text

/-- The shapes that an entry ends with. -/
inductive Catalog.Final (k : Catalog) : Entry → List Shape → Prop
  | builtin {name : String} {builtin : Builtin} (h : Builtin.ofName? name = some builtin) :
      Final k (.dataType name) [builtin.shape]
  | defined {entry : Entry} {text : String} {t : Tree} {types : List Shape}
      (h : k.Defines entry text) (ht : Tree.ofText text = .ok t) (hs : Settled k t types) :
      Final k entry types

theorem Catalog.Defines.unique {k : Catalog} {entry : Entry} {text text' : String}
    (h : k.Defines entry text) (h' : k.Defines entry text') : text = text' := by
  cases entry with
  | property name => exact Option.some.inj (h.symm.trans h')
  | dataType name => exact Option.some.inj (h.2.symm.trans h'.2)

theorem Catalog.Final.of_defines {k : Catalog} {entry : Entry} {text : String}
    {types : List Shape} (h : k.Final entry types) (hdef : k.Defines entry text) :
    ∃ t, Tree.ofText text = .ok t ∧ Settled k t types := by
  cases h with
  | builtin h => cases hdef.1.symm.trans h
  | defined h ht hs => exact ⟨_, hdef.unique h ▸ ht, hs⟩

theorem Catalog.Final.unique {k : Catalog} {entry : Entry} {types types' : List Shape}
    (h : k.Final entry types) (h' : k.Final entry types') : types = types' := by
  cases h with
  | builtin hb =>
    cases h' with
    | builtin hb' =>
      cases hb.symm.trans hb'
      rfl
    | defined hdef => cases hdef.1.symm.trans hb
  | defined hdef ht hs =>
    obtain ⟨t', ht', hs'⟩ := h'.of_defines hdef
    cases ht.symm.trans ht'
    exact hs.unique hs'

/-- Nothing that the session remembers will change. -/
structure Session.Sound (k : Catalog) (s : Session) : Prop where
  trees : ∀ text t, s.trees.lookup text = some t → Tree.ofText text = .ok t
  texts : ∀ text types, s.texts.lookup text = some types →
    ∃ t, Tree.ofText text = .ok t ∧ Settled k t types
  entries : ∀ entry types, s.entries.lookup entry = some types → k.Final entry types

/-- The properties that references have met while they were being expanded. -/
def Session.opened (s : Session) : Set String := {m | m ∈ s.openCycles}

def propertiesOn (path : List Entry) : Set String := {m | .property m ∈ path}

theorem propertiesOn_cons_property {name : String} {path : List Entry} :
    propertiesOn (.property name :: path) = insert name (propertiesOn path) := by
  ext m
  simp [propertiesOn]

theorem propertiesOn_cons_dataType {name : String} {path : List Entry} :
    propertiesOn (.dataType name :: path) = propertiesOn path := by
  ext m
  simp [propertiesOn]

@[simp] theorem propertiesOn_nil : propertiesOn [] = ∅ := by
  ext m
  simp [propertiesOn]

/-- The session while the properties of a path are being expanded. -/
structure Session.Below (k : Catalog) (path : Set String) (s : Session) : Prop where
  sound : s.Sound k
  opened : s.opened ⊆ path

namespace Session

variable {k : Catalog} {path : Set String} {s : Session}

theorem not_mem_of_lookup {κ α : Type} [DecidableEq κ] {l : Memo κ α} {key : κ}
    (h : l.lookup key = none) : key ∉ l.map Prod.fst := by
  intro hmem
  obtain ⟨e, he, rfl⟩ := List.mem_map.mp hmem
  have hne := List.lookup_eq_none_iff.mp h e he
  simp at hne

theorem lookup_rememberTree {text : String} {t : Tree}
    (h : ∀ text t, s.trees.lookup text = some t → Tree.ofText text = .ok t)
    (ht : Tree.ofText text = .ok t) :
    ∀ text' t', (s.rememberTree text t).trees.lookup text' = some t' →
      Tree.ofText text' = .ok t' := by
  intro text' t' hl
  rw [Session.rememberTree, Table.lookup_cons] at hl
  split at hl
  · next he =>
    cases hl
    rwa [he]
  · exact h text' t' hl

theorem Sound.rememberTree {text : String} {t : Tree} (h : s.Sound k)
    (ht : Tree.ofText text = .ok t) : (s.rememberTree text t).Sound k :=
  ⟨lookup_rememberTree h.trees ht, h.texts, h.entries⟩

theorem Sound.rememberText {text : String} {t : Tree} {types : List Shape} (h : s.Sound k)
    (ht : Tree.ofText text = .ok t) (hs : Settled k t types) :
    (s.rememberText text types).Sound k := by
  refine ⟨h.trees, fun text' types' hl => ?_, h.entries⟩
  rw [Session.rememberText, Table.lookup_cons] at hl
  split at hl
  · next he =>
    cases hl
    exact ⟨t, he ▸ ht, hs⟩
  · exact h.texts text' types' hl

theorem Sound.rememberEntry {entry : Entry} {types : List Shape} (h : s.Sound k)
    (hf : k.Final entry types) : (s.rememberEntry entry types).Sound k := by
  refine ⟨h.trees, h.texts, fun entry' types' hl => ?_⟩
  rw [Session.rememberEntry, Table.lookup_cons] at hl
  split at hl
  · next he =>
    cases hl
    rwa [he]
  · exact h.entries entry' types' hl

theorem Sound.record {entry : Entry} {types : List Shape} (h : s.Sound k)
    (hf : k.Final entry types) : (s.record entry types).Sound k := by
  have h' := h.rememberEntry hf
  exact ⟨h'.trees, h'.texts, h'.entries⟩

theorem Sound.start : Sound k {} := ⟨nofun, nofun, nofun⟩

theorem Sound.warn {w : Warning} (h : s.Sound k) : (s.warn w).Sound k :=
  ⟨h.trees, h.texts, h.entries⟩

theorem Sound.enter {entry : Entry} (h : s.Sound k) : (s.enter entry).Sound k := by
  unfold Session.enter
  split
  · exact h
  · exact ⟨h.trees, h.texts, h.entries⟩

@[simp] theorem opened_enter (entry : Entry) : (s.enter entry).opened = s.opened := by
  unfold enter
  split <;> rfl

theorem Sound.close {entry : Entry} (h : s.Sound k) : (s.close entry).Sound k := by
  cases entry <;> exact ⟨h.trees, h.texts, h.entries⟩

theorem Sound.openCycle {property : String} (h : s.Sound k) : (s.openCycle property).Sound k := by
  unfold Session.openCycle
  split
  · exact h
  · exact ⟨h.trees, h.texts, h.entries⟩

@[simp] theorem opened_openCycle (property : String) :
    (s.openCycle property).opened = insert property s.opened := by
  ext m
  unfold Session.openCycle opened
  split
  · simp
    rintro rfl
    assumption
  · simp

theorem opened_close_property (name : String) :
    (s.close (.property name)).opened = s.opened \ {name} := by
  ext m
  simp [close, opened]

theorem opened_close_dataType (name : String) : (s.close (.dataType name)).opened = s.opened := rfl

theorem Below.warn {w : Warning} (h : s.Below k path) : (s.warn w).Below k path :=
  ⟨h.sound.warn, h.opened⟩

theorem Below.hitTree (h : s.Below k path) : s.hitTree.Below k path :=
  ⟨⟨h.sound.trees, h.sound.texts, h.sound.entries⟩, h.opened⟩

theorem Below.hitText (h : s.Below k path) : s.hitText.Below k path :=
  ⟨⟨h.sound.trees, h.sound.texts, h.sound.entries⟩, h.opened⟩

theorem Below.rememberLength {needed : Bool} {name : String} (h : s.Below k path) :
    (s.rememberLength needed name).Below k path :=
  ⟨⟨h.sound.trees, h.sound.texts, h.sound.entries⟩, h.opened⟩

theorem opened_eq_empty : s.opened = ∅ ↔ s.openCycles.isEmpty := by
  simp [opened, Set.eq_empty_iff_forall_notMem, List.eq_nil_iff_forall_not_mem]

end Session

end ValueSyntax
