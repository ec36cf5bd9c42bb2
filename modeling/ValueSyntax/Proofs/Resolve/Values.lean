import ValueSyntax.Proofs.Resolve.Approximation
import ValueSyntax.Proofs.Tree.Proper

namespace ValueSyntax

open Ascending Shapes Relation

section Outcomes

variable {α β : Type} {b : β}

theorem bind_eq_ok_iff {x : Except Failure α} {f : α → Except Failure β} :
    x >>= f = .ok b ↔ ∃ a, x = .ok a ∧ f a = .ok b := by
  cases x with
  | error e => exact ⟨nofun, nofun⟩
  | ok a => exact ⟨fun h => ⟨a, rfl, h⟩, fun ⟨_, ha, h⟩ => by cases ha; exact h⟩

theorem map_eq_ok_iff {x : Except Failure α} {f : α → β} :
    f <$> x = .ok b ↔ ∃ a, x = .ok a ∧ f a = b := by
  cases x with
  | error e => exact ⟨nofun, nofun⟩
  | ok a => simp

theorem forall₂_of_mapM {f : α → Except Failure β} :
    ∀ {l : List α} {bs : List β}, l.mapM f = .ok bs → List.Forall₂ (fun a b => f a = .ok b) l bs
  | [], _, h => by
    cases h
    exact .nil
  | a :: l, _, h => by
    rw [List.mapM_cons] at h
    obtain ⟨b, hb, h⟩ := bind_eq_ok_iff.mp h
    obtain ⟨bs, hbs, h⟩ := bind_eq_ok_iff.mp h
    cases h
    exact .cons hb (forall₂_of_mapM hbs)

end Outcomes

namespace Tree

mutual

/-- Every connective that is resolved has operands. -/
def Supplied (k : Catalog) : Tree → Prop
  | joined c operands =>
    (operands.isEmpty → c = .juxtaposition) ∧
      (c.enumerates k operands.length → SuppliedEach k operands)
  | group inner true => Supplied k inner
  | multiplied inner m => m.max = some 1 → Supplied k inner
  | _ => True

def SuppliedEach (k : Catalog) : List Tree → Prop
  | [] => True
  | t :: ts => Supplied k t ∧ SuppliedEach k ts

end

variable {k : Catalog} {expand : String → Except Failure Shapes} {referrer : String}

theorem suppliedEach_iff {ts : List Tree} : SuppliedEach k ts ↔ ∀ t ∈ ts, t.Supplied k := by
  induction ts with
  | nil => simp [SuppliedEach]
  | cons t ts ih => simp [SuppliedEach, ih]

theorem Proper.supplied {t : Tree} (h : t.Proper) : t.Supplied k := by
  induction h with
  | joined hlen _ ih =>
    rw [Supplied, suppliedEach_iff]
    refine ⟨fun he => ?_, fun _ => ih⟩
    rw [List.isEmpty_iff.mp he] at hlen
    simp at hlen
  | @group inner bracketed _ ih =>
    cases bracketed
    · simp [Supplied]
    · simpa [Supplied] using ih
  | multiplied _ ih =>
    rw [Supplied]
    exact fun _ => ih
  | _ => simp [Supplied]

theorem gathers_of_reference (hany : ∀ name, ¬ k.inlines name → expand name = .ok any)
    {name : String} {range : Option Range} {s : Shapes}
    (h : (reference name range true).shapesAfresh k expand referrer = .ok s) :
    Gathers k (reference name range true) (fun name v => expand name = .ok v) s := by
  rw [shapesAfresh] at h
  by_cases hi : k.inlines name
  · exact .reference hi h
  · cases (hany name hi).symm.trans h
    refine .of_own (by rw [own, if_neg hi]) fun _ he => ?_
    cases he
    contradiction

theorem gathers_of_multiplied {inner : Tree} {m : Multiplier} {s : Shapes}
    (hinner : inner.shapesAfresh k expand referrer = .ok s →
      Gathers k inner (fun name v => expand name = .ok v) s)
    (h : (multiplied inner m).shapesAfresh k expand referrer = .ok s) :
    Gathers k (multiplied inner m) (fun name v => expand name = .ok v) s := by
  rw [shapesAfresh] at h
  split at h
  · next hm =>
    cases h
    refine .of_own (by rw [own, if_pos hm]) fun _ he => ?_
    cases he
    simp_all
  · next hm₀ =>
    split at h
    · next hm => exact .multiplied hm (hinner h)
    · next hm =>
      cases h
      refine .of_own (by rw [own, if_neg hm₀, if_neg hm]) fun _ he => ?_
      cases he
      contradiction

mutual

theorem gathers_of_shapesAfresh (hany : ∀ name, ¬ k.inlines name → expand name = .ok any) :
    ∀ {t : Tree} {s : Shapes}, t.shapesAfresh k expand referrer = .ok s →
      Gathers k t (fun name v => expand name = .ok v) s
  | keyword _, _, h | symbol _ _, _, h | number _ _, _, h | reference _ _ false, _, h
  | function _ _, _, h | group _ false, _, h => by
    rw [shapesAfresh] at h
    cases h
    exact .of_own (by rw [own]) (fun _ he => nomatch he)
  | reference _ _ true, _, h => gathers_of_reference hany h
  | joined c operands, s, h => by
    rw [shapesAfresh] at h
    split at h
    · cases h
    · split at h
      · next hc =>
        obtain ⟨parts, hparts, rfl⟩ := map_eq_ok_iff.mp h
        exact .joined hc (each_of_shapesEachAfresh hany hparts)
      · next hc =>
        cases h
        refine .of_own (by rw [own, if_neg hc]) fun _ he => ?_
        cases he
        contradiction
  | group inner true, s, h => by
    rw [shapesAfresh] at h
    exact .group (gathers_of_shapesAfresh hany h)
  | multiplied _ _, _, h => gathers_of_multiplied (gathers_of_shapesAfresh hany) h

theorem each_of_shapesEachAfresh (hany : ∀ name, ¬ k.inlines name → expand name = .ok any) :
    ∀ {ts : List Tree} {parts : List Shapes},
      shapesEachAfresh k expand referrer ts = .ok parts →
        Gathers.Each k (fun name v => expand name = .ok v) ts parts
  | [], parts, h => by
    cases h
    exact .nil
  | t :: ts, parts, h => by
    rw [shapesEachAfresh] at h
    obtain ⟨first, hfirst, h⟩ := bind_eq_ok_iff.mp h
    obtain ⟨others, hothers, h⟩ := bind_eq_ok_iff.mp h
    cases h
    exact .cons (gathers_of_shapesAfresh hany hfirst) (each_of_shapesEachAfresh hany hothers)

end

mutual

/-- A tree has shapes if the properties that it expands have. -/
theorem exists_shapesAfresh (hany : ∀ name, ¬ k.inlines name → expand name = .ok any) :
    ∀ {t : Tree}, t.Supplied k → (∀ name, t.Expands k name → ∃ v, expand name = .ok v) →
      ∃ s, t.shapesAfresh k expand referrer = .ok s
  | keyword _, _, _ | symbol _ _, _, _ | number _ _, _, _ | reference _ _ false, _, _
  | function _ _, _, _ | group _ false, _, _ => ⟨_, by rw [shapesAfresh]; rfl⟩
  | reference name range true, _, he => by
    rw [shapesAfresh]
    by_cases hi : k.inlines name
    · exact he name (.reference hi)
    · exact ⟨any, hany name hi⟩
  | joined c operands, hs, he => by
    rw [Supplied] at hs
    rw [shapesAfresh, if_neg (fun h => h.2 (hs.1 h.1))]
    split
    · next hc =>
      obtain ⟨parts, hparts⟩ := exists_shapesEachAfresh hany (hs.2 hc)
        (fun t ht name h => he name (.joined hc ht h))
      exact ⟨_, map_eq_ok_iff.mpr ⟨parts, hparts, rfl⟩⟩
    · exact ⟨any, rfl⟩
  | group inner true, hs, he => by
    rw [shapesAfresh]
    exact exists_shapesAfresh hany (by rwa [Supplied] at hs) fun name h => he name (.group h)
  | multiplied inner m, hs, he => by
    rw [shapesAfresh]
    split
    · exact ⟨_, rfl⟩
    · split
      · next hm =>
        rw [Supplied] at hs
        exact exists_shapesAfresh hany (hs hm) fun name h => he name (.multiplied hm h)
      · exact ⟨_, rfl⟩

theorem exists_shapesEachAfresh (hany : ∀ name, ¬ k.inlines name → expand name = .ok any) :
    ∀ {ts : List Tree}, SuppliedEach k ts →
      (∀ t ∈ ts, ∀ name, t.Expands k name → ∃ v, expand name = .ok v) →
        ∃ parts, shapesEachAfresh k expand referrer ts = .ok parts
  | [], _, _ => ⟨[], rfl⟩
  | t :: ts, hs, he => by
    obtain ⟨first, hfirst⟩ := exists_shapesAfresh hany hs.1 (he t (List.mem_cons_self ..))
    obtain ⟨others, hothers⟩ := exists_shapesEachAfresh hany hs.2
      fun t' ht' => he t' (List.mem_cons_of_mem _ ht')
    refine ⟨first :: others, ?_⟩
    rw [shapesEachAfresh]
    exact bind_eq_ok_iff.mpr ⟨first, hfirst, bind_eq_ok_iff.mpr ⟨others, hothers, rfl⟩⟩

end

end Tree

section Definitions

variable {k : Catalog} {expand : String → Except Failure Shapes} {source : Source}

theorem sourceAfresh_eq_ok_iff {types : List Shape} :
    sourceAfresh k expand source = .ok types ↔ ∃ t s, Tree.ofText source.text = .ok t ∧
      t.shapesAfresh k expand source.name = .ok s ∧ types = k.settings.finish s := by
  simp only [← Source.tree_eq_ok_iff]
  unfold sourceAfresh
  constructor
  · intro h
    obtain ⟨t, ht, h⟩ := bind_eq_ok_iff.mp h
    obtain ⟨s, hs, h⟩ := bind_eq_ok_iff.mp h
    cases h
    exact ⟨t, s, ht, hs, rfl⟩
  · rintro ⟨t, s, ht, hs, rfl⟩
    exact bind_eq_ok_iff.mpr ⟨t, ht, bind_eq_ok_iff.mpr ⟨s, hs, rfl⟩⟩

theorem propertyAfresh_of_not_inlines {path : List String} {name : String}
    (h : ¬ k.inlines name) : propertyAfresh k path name = .ok any := by
  rw [propertyAfresh]
  split
  · rfl
  · next hinline =>
    split
    · rfl
    · next hget => simp_all [Catalog.inlines, Table.contains]

theorem propertyAfresh_of_inlines {path : List String} {name text : String}
    (hi : k.settings.inlineProperties) (hget : k.properties.get? name = some text) :
    propertyAfresh k path name =
      if name ∈ path then .ok any
      else ofList <$> sourceAfresh k (propertyAfresh k (name :: path)) ⟨name, text⟩ := by
  rw [propertyAfresh]
  split
  · simp_all
  · split
    · simp_all
    · next hget' =>
      cases hget.symm.trans hget'
      split <;> rfl

theorem Catalog.exists_text_of_inlines {name : String} (h : k.inlines name) :
    k.settings.inlineProperties ∧ ∃ text, k.properties.get? name = some text := by
  simpa [inlines, Table.contains, Option.isSome_iff_exists] using h

theorem Catalog.unseen_cons_lt_of_get? {path : List String} {name text : String}
    (hget : k.properties.get? name = some text) (hmem : name ∉ path) :
    unseen k.properties.keys (name :: path) < unseen k.properties.keys path := by
  apply unseen_cons_lt _ hmem
  exact (Table.contains_iff_mem_keys _ _).mp (by simp [Table.contains, hget])

theorem approximates_of_propertyAfresh {path : List String} {name : String} {v : Shapes}
    (hi : k.inlines name) (hpath : ∀ m ∈ path, TransGen k.Expands m name)
    (h : propertyAfresh k path name = .ok v) :
    Approximates k {m | m ∈ path} {m | m ∈ path} name v := by
  obtain ⟨hinline, text, hget⟩ := Catalog.exists_text_of_inlines hi
  rw [propertyAfresh_of_inlines hinline hget] at h
  split at h
  · next hmem =>
    cases h
    exact .of_cycle hmem (hpath name hmem)
  · next hmem =>
    obtain ⟨types, htypes, rfl⟩ := map_eq_ok_iff.mp h
    obtain ⟨t, s, ht, hs, rfl⟩ := sourceAfresh_eq_ok_iff.mp htypes
    have htree := Catalog.tree?_eq_some hget ht
    have hlt := Catalog.unseen_cons_lt_of_get? hget hmem
    -- References in the tree are one step further from all that is on the path.
    have hnext : ∀ c, t.Expands k c → ∀ m ∈ name :: path, TransGen k.Expands m c := by
      intro c hc m hm
      have hstep : k.Expands name c := ⟨t, htree, hc⟩
      rcases List.mem_cons.mp hm with rfl | hm
      · exact .single hstep
      · exact (hpath m hm).tail hstep
    have hgathers := (Tree.gathers_of_shapesAfresh
      (fun _ hn => propertyAfresh_of_not_inlines hn) hs).mono fun c v hc hv =>
        approximates_of_propertyAfresh hc.inlines (hnext c hc) hv
    have hset : {m | m ∈ name :: path} = insert name {m | m ∈ path} := by
      ext m
      simp
    rw [hset] at hgathers
    exact .of_gathers htree hmem hgathers fun m hm => Set.mem_insert_iff.mp hm
termination_by unseen k.properties.keys path

/-- A property has a value if all definitions that it depends on can be read. -/
theorem exists_propertyAfresh {path : List String} {name : String}
    (h : ∀ m, ReflTransGen k.Expands name m → (k.tree? m).isSome) :
    ∃ v, propertyAfresh k path name = .ok v := by
  by_cases hi : k.inlines name
  · obtain ⟨hinline, text, hget⟩ := Catalog.exists_text_of_inlines hi
    rw [propertyAfresh_of_inlines hinline hget]
    split
    · exact ⟨any, rfl⟩
    · next hmem =>
      have hlt := Catalog.unseen_cons_lt_of_get? hget hmem
      obtain ⟨t, htree⟩ := Option.isSome_iff_exists.mp (h name .refl)
      have ht := Catalog.ofText_of_tree? hget htree
      obtain ⟨s, hs⟩ := Tree.exists_shapesAfresh
        (fun _ hn => propertyAfresh_of_not_inlines hn) (Tree.Proper.of_text ht).supplied
        (fun c hc => exists_propertyAfresh fun m hm => h m (.head ⟨t, htree, hc⟩ hm))
      have hsource := (@sourceAfresh_eq_ok_iff k _ ⟨name, text⟩ _).mpr ⟨t, s, ht, hs, rfl⟩
      exact ⟨_, map_eq_ok_iff.mpr ⟨_, hsource, rfl⟩⟩
  · exact ⟨any, propertyAfresh_of_not_inlines hi⟩
termination_by unseen k.properties.keys path

theorem gathers_afresh {path : List String} {referrer : String} {t : Tree} {s : Shapes}
    (hpath : ∀ c, t.Expands k c → ∀ m ∈ path, TransGen k.Expands m c)
    (h : t.shapesAfresh k (propertyAfresh k path) referrer = .ok s) :
    Gathers k t (Approximates k {m | m ∈ path} {m | m ∈ path}) s :=
  (Tree.gathers_of_shapesAfresh (fun _ hn => propertyAfresh_of_not_inlines hn) h).mono
    fun c _ hc hv => approximates_of_propertyAfresh hc.inlines (hpath c hc) hv

theorem gathers_afresh_nil {referrer : String} {t : Tree} {s : Shapes}
    (h : t.shapesAfresh k (propertyAfresh k []) referrer = .ok s) :
    Gathers k t (Approximates k ∅ ∅) s := by
  have hgathers := gathers_afresh (by simp) h
  have hset : {m | m ∈ ([] : List String)} = ∅ := by
    ext m
    simp
  rwa [hset] at hgathers

namespace Settled

variable {t : Tree} {types : List Shape}

theorem exists_shapesAfresh (h : Settled k t types) (hs : t.Supplied k) (path : List String)
    (referrer : String) : ∃ s, t.shapesAfresh k (propertyAfresh k path) referrer = .ok s :=
  Tree.exists_shapesAfresh (fun _ hn => propertyAfresh_of_not_inlines hn) hs
    fun c hc => exists_propertyAfresh (h.readable c hc)

theorem shapesAfresh (h : Settled k t types) (hs : t.Supplied k) (referrer : String) :
    ∃ s, t.shapesAfresh k (propertyAfresh k []) referrer = .ok s ∧ k.settings.finish s = types := by
  obtain ⟨s, hs⟩ := h.exists_shapesAfresh hs [] referrer
  exact ⟨s, hs, (Settled.of_gathers (gathers_afresh_nil hs)).unique h⟩

theorem sourceAfresh (h : Settled k t types) (ht : Tree.ofText source.text = .ok t) :
    sourceAfresh k (propertyAfresh k []) source = .ok types := by
  obtain ⟨s, hs, hfinish⟩ := h.shapesAfresh (Tree.Proper.of_text ht).supplied source.name
  exact sourceAfresh_eq_ok_iff.mpr ⟨t, s, ht, hs, hfinish.symm⟩

end Settled

theorem settled_of_sourceAfresh {types : List Shape}
    (h : sourceAfresh k (propertyAfresh k []) source = .ok types) :
    ∃ t, Tree.ofText source.text = .ok t ∧ Settled k t types := by
  obtain ⟨t, s, ht, hs, rfl⟩ := sourceAfresh_eq_ok_iff.mp h
  exact ⟨t, ht, .of_gathers (gathers_afresh_nil hs)⟩

/-- With a property itself on the path, its shapes are final as well. -/
theorem settled_of_definitionAfresh {name text : String} {types : List Shape}
    (hget : k.properties.get? name = some text) (h : definitionAfresh k name text = .ok types) :
    ∃ t, Tree.ofText text = .ok t ∧ Settled k t types := by
  obtain ⟨t, s, ht, hs, rfl⟩ := sourceAfresh_eq_ok_iff.mp h
  have htree := Catalog.tree?_eq_some hget ht
  have hgathers := gathers_afresh (fun c hc m hm => by
    rw [List.mem_singleton.mp hm]
    exact .single ⟨t, htree, hc⟩) hs
  have hset : {m | m ∈ [name]} = insert name (∅ : Set String) := by
    ext m
    simp
  rw [hset] at hgathers
  -- The property itself was the only one on the path, so nothing is open any more.
  have happrox := Approximates.of_gathers htree (Set.notMem_empty name) hgathers
    fun m hm => Set.mem_insert_iff.mp hm
  exact ⟨t, ht, happrox.settled htree toList_ofList_finish⟩

theorem Settled.definitionAfresh {t : Tree} {types : List Shape} {name text : String}
    (h : Settled k t types) (hget : k.properties.get? name = some text)
    (ht : Tree.ofText text = .ok t) : definitionAfresh k name text = .ok types := by
  obtain ⟨s, hs⟩ := h.exists_shapesAfresh (Tree.Proper.of_text ht).supplied [name] name
  have hafresh : ValueSyntax.definitionAfresh k name text = .ok (k.settings.finish s) :=
    sourceAfresh_eq_ok_iff.mpr ⟨t, s, ht, hs, rfl⟩
  obtain ⟨t', ht', h'⟩ := settled_of_definitionAfresh hget hafresh
  cases ht.symm.trans ht'
  rw [hafresh, h.unique h']

end Definitions

end ValueSyntax
