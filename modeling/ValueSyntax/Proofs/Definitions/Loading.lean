import Mathlib.Data.List.Forall2
import ValueSyntax.Definitions.Load
import ValueSyntax.Proofs.Table.Index

namespace ValueSyntax

namespace Json

variable {α : Type} {value? : Json → Option α}

/-- The members of a field that is an object. A field that is left out has none. -/
def members? : Option Json → Option (List (Option String × Json))
  | none => some []
  | some (object members) => some members
  | _ => none

/-- Members with names and values, and what they stand for. -/
def Stand (value? : Json → Option α) : List (Option String × Json) → List (String × α) → Prop :=
  List.Forall₂ fun m e => m.1 = some e.1 ∧ value? m.2 = some e.2

/-- The last member of a name. -/
def lastMember? (members : List (Option String × Json)) (name : String) : Option Json :=
  (members.reverse.find? (·.1 = some name)).map Prod.snd

/-- A table of members: what inserting them comes to, with the names in the order in which they
first come and each standing for what its last member does. -/
structure Loaded (value? : Json → Option α) (members : List (Option String × Json))
    (t : Table String α) : Prop where
  inserted : ∃ inserts, Stand value? members inserts ∧ t = .ofList inserts
  keys_eq : t.keys = (members.filterMap Prod.fst).eraseDups
  get?_eq : ∀ name, t.get? name = (lastMember? members name).bind value?

section Stand

variable {members : List (Option String × Json)} {inserts : List (String × α)}

theorem Stand.filterMap_fst (h : Stand value? members inserts) :
    members.filterMap Prod.fst = inserts.map Prod.fst := by
  induction h with
  | nil => rfl
  | cons hm _ ih => rw [List.filterMap_cons_some hm.1, ih, List.map_cons]

theorem Stand.lookup (h : Stand value? members inserts) (name : String) :
    inserts.lookup name = (members.find? (·.1 = some name)).bind fun m => value? m.2 := by
  induction h with
  | nil => rfl
  | @cons m e _ _ hm _ ih =>
    obtain ⟨hname, hvalue⟩ := hm
    rw [Table.lookup_cons, List.find?_cons, hname]
    by_cases h : name = e.1
    · simp [h, hvalue]
    · simp [h, Ne.symm h, ih]

theorem Stand.loaded (h : Stand value? members inserts) :
    Loaded value? members (.ofList inserts) where
  inserted := ⟨inserts, h, rfl⟩
  keys_eq := by rw [Table.keys_ofList, h.filterMap_fst]
  get?_eq name := by
    have hreverse : Stand value? members.reverse inserts.reverse := List.forall₂_reverse_iff.mpr h
    rw [Table.get?_ofList, hreverse.lookup, lastMember?, Option.bind_map]
    rfl

theorem foldlM_insert_eq_some_iff {t t' : Table String α} :
    members.foldlM (fun t (key, j) => do return t.insert (← key) (← value? j)) t = some t' ↔
      ∃ inserts, Stand value? members inserts ∧
        t' = inserts.foldl (fun t (k, a) => t.insert k a) t := by
  induction members generalizing t with
  | nil =>
    constructor
    · intro h
      cases h
      exact ⟨[], .nil, rfl⟩
    · rintro ⟨inserts, h, rfl⟩
      cases h
      rfl
  | cons m members ih =>
    obtain ⟨key, j⟩ := m
    rw [List.foldlM_cons, Option.bind_eq_bind, Option.bind_eq_some_iff]
    constructor
    · rintro ⟨t₁, hm, hmembers⟩
      obtain ⟨inserts, hstand, rfl⟩ := ih.mp hmembers
      -- A member is inserted only if its key and its value can be read.
      simp only [Option.bind_eq_bind, Option.bind_eq_some_iff] at hm
      obtain ⟨k, hk, a, ha, h⟩ := hm
      cases h
      exact ⟨(k, a) :: inserts, .cons ⟨hk, ha⟩ hstand, rfl⟩
    · rintro ⟨inserts, h, rfl⟩
      cases h with
      | @cons _ e _ _ hm hstand =>
        obtain ⟨hkey, hvalue⟩ := hm
        refine ⟨t.insert e.1 e.2, ?_, ih.mpr ⟨_, hstand, rfl⟩⟩
        dsimp only at hkey hvalue ⊢
        rw [hkey, hvalue]
        rfl

theorem table?_eq_some_iff {t : Table String α} :
    table? value? (object members) = some t ↔ Loaded value? members t := by
  rw [table?, foldlM_insert_eq_some_iff]
  constructor
  · rintro ⟨inserts, h, rfl⟩
    exact h.loaded
  · exact fun h => h.inserted

end Stand

/-- A table of the members of a field. -/
def LoadedFrom (value? : Json → Option α) (field : Option Json) (t : Table String α) : Prop :=
  ∃ members, members? field = some members ∧ Loaded value? members t

theorem orEmpty?_table?_eq_some_iff {field : Option Json} {t : Table String α} :
    orEmpty? .empty (table? value?) field = some t ↔ LoadedFrom value? field t := by
  cases field with
  | none =>
    have h : table? value? (object []) = some t ↔ Loaded value? [] t := table?_eq_some_iff
    simpa [LoadedFrom, members?, orEmpty?, table?] using h
  | some j =>
    cases j with
    | object members => simp [LoadedFrom, members?, orEmpty?, table?_eq_some_iff]
    | _ => simp [LoadedFrom, members?, orEmpty?, table?]

end Json

namespace Definitions

open Json

theorem atRule?_eq_some_iff {level : Nat} {j : Json} {rule : AtRule} :
    atRule? level j = some rule ↔ ∃ descriptors, fields? ["descriptors"] j = some [descriptors] ∧
      LoadedFrom (text? (level + 2)) descriptors rule.descriptors := by
  rw [atRule?, Option.bind_eq_bind, Option.bind_eq_some_iff]
  constructor
  · rintro ⟨fields, hfields, h⟩
    split at h
    · next descriptors =>
      obtain ⟨t, ht, h⟩ := Option.bind_eq_some_iff.mp h
      cases h
      exact ⟨descriptors, hfields, orEmpty?_table?_eq_some_iff.mp ht⟩
    · cases h
  · rintro ⟨descriptors, hfields, h⟩
    refine ⟨_, hfields, ?_⟩
    show (orEmpty? .empty (texts? (level + 1)) descriptors).bind _ = _
    rw [texts?, orEmpty?_table?_eq_some_iff.mpr h]
    rfl

theorem ofJson?_eq_some_iff {j : Json} {d : Definitions} :
    ofJson? j = some d ↔ ∃ properties dataTypes atRules pseudoClasses,
      fields? ["properties", "syntaxes", "atRules", "pseudoClasses"] j =
        some [properties, dataTypes, atRules, pseudoClasses] ∧
      LoadedFrom (text? 2) properties d.properties ∧
      LoadedFrom (text? 2) dataTypes d.dataTypes ∧
      LoadedFrom (atRule? 2) atRules d.atRules ∧
      orEmpty? [] pseudoClasses? pseudoClasses = some d.pseudoClasses := by
  rw [ofJson?, Option.bind_eq_bind, Option.bind_eq_some_iff]
  constructor
  · rintro ⟨fields, hfields, h⟩
    split at h
    · next properties dataTypes atRules pseudoClasses =>
      simp only [Option.bind_eq_bind, Option.bind_eq_some_iff] at h
      obtain ⟨ps, hp, ts, ht, rs, hr, cs, hc, h⟩ := h
      cases h
      exact ⟨_, _, _, _, hfields, orEmpty?_table?_eq_some_iff.mp hp,
        orEmpty?_table?_eq_some_iff.mp ht, orEmpty?_table?_eq_some_iff.mp hr, hc⟩
    · cases h
  · rintro ⟨properties, dataTypes, atRules, pseudoClasses, hfields, hp, ht, hr, hc⟩
    refine ⟨_, hfields, ?_⟩
    simp only [texts?, orEmpty?_table?_eq_some_iff.mpr hp, orEmpty?_table?_eq_some_iff.mpr ht,
      orEmpty?_table?_eq_some_iff.mpr hr, hc]
    rfl

end Definitions

open Json Definitions in
/-- Whatever is inserted into a table, its index leads to the entries, which are in the order of
their first insertion and hold what was inserted last. The tables of a document are what inserting
their members comes to, and so are its at-rules: each of them stands once, where it first came, with
the descriptors of its last member and no others. -/
theorem tables_keep_insertion_order :
    (∀ inserts : List (String × String),
      ∃ x, IndexedTable.ofList? inserts = some x ∧ x.After inserts) ∧
    (∀ (text : String) (d : Definitions), Definitions.read? text = some d ↔
      ∃ j properties dataTypes atRules pseudoClasses, Json.read? text = some j ∧
        fields? ["properties", "syntaxes", "atRules", "pseudoClasses"] j =
          some [properties, dataTypes, atRules, pseudoClasses] ∧
        LoadedFrom (text? 2) properties d.properties ∧
        LoadedFrom (text? 2) dataTypes d.dataTypes ∧
        LoadedFrom (atRule? 2) atRules d.atRules ∧
        orEmpty? [] pseudoClasses? pseudoClasses = some d.pseudoClasses) ∧
    ∀ (level : Nat) (j : Json) (rule : AtRule), atRule? level j = some rule ↔
      ∃ descriptors, fields? ["descriptors"] j = some [descriptors] ∧
        LoadedFrom (text? (level + 2)) descriptors rule.descriptors := by
  refine ⟨fun inserts => ?_, fun text d => ?_, fun level j rule => atRule?_eq_some_iff⟩
  · obtain ⟨x, hx, h⟩ := IndexedTable.exists_indexes_ofList inserts
    exact ⟨x, hx, h.after⟩
  · rw [Definitions.read?, Option.bind_eq_bind, Option.bind_eq_some_iff]
    constructor
    · rintro ⟨j, hj, h⟩
      obtain ⟨properties, dataTypes, atRules, pseudoClasses, h⟩ := ofJson?_eq_some_iff.mp h
      exact ⟨j, properties, dataTypes, atRules, pseudoClasses, hj, h⟩
    · rintro ⟨j, properties, dataTypes, atRules, pseudoClasses, hj, h⟩
      exact ⟨j, hj, ofJson?_eq_some_iff.mpr ⟨properties, dataTypes, atRules, pseudoClasses, h⟩⟩

/-- Of an at-rule that stands twice, the descriptors of the first are gone, but not its place. -/
example :
    let rule (descriptor : String) : Json :=
      .object [(some "descriptors", .object [(some descriptor, .string (some "auto"))])]
    (Definitions.ofJson? (.object [(some "atRules", .object [(some "@page", rule "size"),
      (some "@font-face", .object []), (some "@page", rule "bleed")])])).map
        (fun d => d.atRules.entries.map fun e => (e.1, e.2.descriptors.entries)) =
      some [("@page", [("bleed", "auto")]), ("@font-face", [])] := by
  decide +kernel

end ValueSyntax
