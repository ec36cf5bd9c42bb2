import ValueSyntax.Proofs.Resolve.Values
import ValueSyntax.Proofs.Shapes.Order
import ValueSyntax.Proofs.Tree.Names

namespace ValueSyntax

open Ascending Shapes

/-- The shapes mention only some of the data types. -/
def MentionsOnly (names : String → Prop) (types : List Shape) : Prop :=
  ∀ name, .dataType name ∈ types → names name

/-- A list of shapes as resolution gives it. -/
structure Listed (k : Catalog) (types : List Shape) : Prop where
  ascending : types.Pairwise Shape.Precedes
  nodup : types.Nodup
  nonempty : k.settings.fallbackOnEmpty → types ≠ []
  known : MentionsOnly (k.isKnownDataType ·) types

section Known

variable {k : Catalog} {name : String}

open ValueSyntax.Tree

theorem Shape.ofNumber_ne_dataType {text : String} {unit : Option String} :
    Shape.ofNumber text unit ≠ .dataType name := by
  unfold ofNumber
  split
  · split <;> nofun
  · split <;> nofun

mutual

/-- A data type is listed for a reference to it if it is known: any other reference stands for any
string. -/
theorem Tree.mentions_of_mem_own : ∀ {t : Tree}, .dataType name ∈ t.own k →
    k.isKnownDataType name ∧ t.Mentions name
  | keyword text, h => by simp [own] at h
  | symbol text quoted, h => by
    rw [own] at h
    split at h
    · simp at h
    · simp at h
  | number text unit, h => by
    rw [own, mem_singleton] at h
    exact absurd h.symm Shape.ofNumber_ne_dataType
  | reference n range true, h => by
    rw [own] at h
    split at h
    · simp at h
    · simp at h
  | reference n range false, h => by
    rw [own] at h
    split at h
    · next hk =>
      rw [mem_singleton] at h
      cases h
      exact ⟨hk, mentions_reference⟩
    · simp at h
  | function n arguments, h => by simp [own] at h
  | joined c operands, h => by
    by_cases hc : c.enumerates k operands.length
    · rcases (mem_own_joined hc).mp h with ⟨-, t, ht, h⟩ | ⟨h, -⟩
      · exact (Tree.mentions_of_mem_ownEach operands t ht h).imp_right (.joined ht)
      · cases h
    · rw [own, if_neg hc] at h
      simp at h
  | group inner true, h => by
    rw [own] at h
    exact (Tree.mentions_of_mem_own h).imp_right .group
  | group inner false, h => by simp [own] at h
  | multiplied inner m, h => by
    rw [own] at h
    split at h
    · simp at h
    · split at h
      · exact (Tree.mentions_of_mem_own h).imp_right .multiplied
      · simp at h

theorem Tree.mentions_of_mem_ownEach : ∀ ts : List Tree, ∀ t ∈ ts, .dataType name ∈ t.own k →
    k.isKnownDataType name ∧ t.Mentions name
  | [] => nofun
  | _ :: ts => List.forall_mem_cons.mpr
    ⟨fun h => Tree.mentions_of_mem_own h, Tree.mentions_of_mem_ownEach ts⟩

end

theorem Tree.Yields.mentions {t : Tree} (h : t.Yields k (.dataType name)) :
    k.isKnownDataType name ∧ t.Mentions name := by
  rcases h with h | ⟨h, -⟩
  · exact t.mentions_of_mem_own h
  · cases h

theorem Tree.Closure.mentions {t : Tree} (h : t.Closure k (.dataType name)) :
    k.isKnownDataType name ∧
      (t.Mentions name ∨ ∃ text u, Tree.ofText text = .ok u ∧ u.Mentions name) := by
  rcases h with h | ⟨_, _, m, _, ⟨u, hu, h⟩ | ⟨h, _⟩⟩
  · exact h.mentions.imp_right Or.inl
  · obtain ⟨text, hget, -⟩ := Option.bind_eq_some_iff.mp hu
    have htext := Catalog.ofText_of_tree? hget hu
    exact h.mentions.imp_right fun h => Or.inr ⟨text, u, htext, h⟩
  · cases h

end Known

section Lists

variable {k : Catalog} {types : List Shape}

theorem Listed.of_ascending (s : Shapes) (hnonempty : k.settings.fallbackOnEmpty → ∃ x, x ∈ s)
    (hknown : ∀ name, .dataType name ∈ s → k.isKnownDataType name) : Listed k s.toList where
  ascending := s.ascending.imp Shape.precedes_iff.mpr
  nodup := s.ascending.imp fun h => by
    rintro rfl
    simp [Std.ReflCmp.compare_self] at h
  nonempty hf he := by
    obtain ⟨x, hx⟩ := hnonempty hf
    rw [mem_def, he] at hx
    cases hx
  known := hknown

theorem Settled.listed {t : Tree} (h : Settled k t types) : Listed k types := by
  rw [← h.sorted]
  refine .of_ascending _ (fun hf => ?_) fun name hname => ?_
  · obtain ⟨x, hx⟩ := h.nonempty hf
    exact ⟨x, mem_ofList.mpr hx⟩
  · exact ((h.mem_iff _).mp (mem_ofList.mp hname)).mentions.1

theorem Listed.single {x : Shape} (hx : ∀ name, x ≠ .dataType name) : Listed k [x] := by
  refine .of_ascending (singleton x) (fun _ => ⟨x, mem_singleton.mpr rfl⟩) fun name hname => ?_
  exact absurd (mem_singleton.mp hname).symm (hx name)

/-- The trees that a request resolves: those of texts, and one that it passes. -/
def Request.Resolves (r : Request) (t : Tree) : Prop :=
  (∃ text, Tree.ofText text = .ok t) ∨ ∃ referrer, r = .tree t referrer

/-- The lists of a request are final lists of trees, or of one shape that needs no definition. -/
inductive Request.Lists (k : Catalog) (r : Request) : List Shape → Prop
  | settled {t : Tree} {types : List Shape} (ht : r.Resolves t) (h : Settled k t types) :
      Lists k r types
  | single {x : Shape} (hx : ∀ name, x ≠ .dataType name) : Lists k r [x]

variable {r : Request}

theorem Request.Lists.listed (h : r.Lists k types) : Listed k types := by
  cases h with
  | settled _ h => exact h.listed
  | single hx => exact .single hx

theorem lists_of_sourceAfresh (r : Request) {source : Source}
    (h : sourceAfresh k (propertyAfresh k []) source = .ok types) : r.Lists k types :=
  let ⟨_, ht, hsettled⟩ := settled_of_sourceAfresh h
  .settled (Or.inl ⟨_, ht⟩) hsettled

theorem lists_of_dataTypeAfresh (r : Request) {name : String}
    (h : dataTypeAfresh k name = .ok types) : r.Lists k types := by
  unfold dataTypeAfresh at h
  split at h
  · next builtin _ =>
    cases h
    exact .single (by cases builtin <;> exact nofun)
  · split at h
    · exact lists_of_sourceAfresh r h
    · cases h
      exact .single nofun

theorem lists_of_definitionAfresh (r : Request) {name text : String}
    (hget : k.properties.get? name = some text) (h : definitionAfresh k name text = .ok types) :
    r.Lists k types :=
  let ⟨_, ht, hsettled⟩ := settled_of_definitionAfresh hget h
  .settled (Or.inl ⟨_, ht⟩) hsettled

theorem lists_of_typesAfresh {l : List (Option String × List Shape)}
    (h : r.typesAfresh k = .ok l) : ∀ e ∈ l, r.Lists k e.2 := by
  -- Requests for one list label it with nothing, requests for many with its name.
  have labelled {x : Except Failure (List Shape)} {label : Option String}
      {e : Option String × List Shape} (hx : ∀ types, x = .ok types → r.Lists k types)
      (he : (fun types => (label, types)) <$> x = .ok e) : r.Lists k e.2 := by
    obtain ⟨types, htypes, rfl⟩ := map_eq_ok_iff.mp he
    exact hx types htypes
  have single {x : Except Failure (List Shape)} (hx : ∀ types, x = .ok types → r.Lists k types)
      (h : (fun types => [((none : Option String), types)]) <$> x = .ok l) :
      ∀ e ∈ l, r.Lists k e.2 := by
    obtain ⟨types, htypes, rfl⟩ := map_eq_ok_iff.mp h
    exact List.forall_mem_singleton.mpr (hx types htypes)
  cases r with
  | property name =>
    rw [Request.typesAfresh] at h
    split at h
    · next hget => exact single (fun _ => lists_of_definitionAfresh _ hget) h
    · cases h
      exact fun _ he => nomatch he
  | dataType name => exact single (fun _ => lists_of_dataTypeAfresh _) h
  | text source => exact single (fun _ => lists_of_sourceAfresh _) h
  | tree t referrer =>
    obtain ⟨s, hs, rfl⟩ := map_eq_ok_iff.mp h
    exact List.forall_mem_singleton.mpr
      (.settled (Or.inr ⟨referrer, rfl⟩) (.of_gathers (gathers_afresh_nil hs)))
  | allProperties =>
    intro e he
    obtain ⟨e', he', h⟩ := exists_of_forall₂ (List.Forall₂.flip (forall₂_of_mapM h)) e he
    exact labelled (fun _ => lists_of_definitionAfresh _ (Table.get?_of_mem he')) h
  | allDataTypes =>
    intro e he
    obtain ⟨name, -, h⟩ := exists_of_forall₂ (List.Forall₂.flip (forall₂_of_mapM h)) e he
    exact labelled (fun _ => lists_of_dataTypeAfresh _) h
  | _ =>
    cases h
    exact fun _ he => nomatch he

theorem listed_of_typesAfresh {l : List (Option String × List Shape)}
    (h : r.typesAfresh k = .ok l) : ∀ e ∈ l, Listed k e.2 :=
  fun e he => (lists_of_typesAfresh h e he).listed

end Lists

end ValueSyntax
