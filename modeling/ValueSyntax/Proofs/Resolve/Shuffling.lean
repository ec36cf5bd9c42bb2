import ValueSyntax.Proofs.Resolve.Values

namespace ValueSyntax

open Ascending Shapes Relation

/-- The trees differ in the order of operands only, anywhere in them. Juxtaposed operands are in the
same order. -/
inductive Tree.Shuffled : Tree → Tree → Prop
  | keyword (text : String) : Shuffled (keyword text) (keyword text)
  | symbol (text : String) (quoted : Bool) : Shuffled (symbol text quoted) (symbol text quoted)
  | reference (name : String) (range : Option Range) (property : Bool) :
      Shuffled (reference name range property) (reference name range property)
  | number (text : String) (unit : Option String) : Shuffled (number text unit) (number text unit)
  | function (name : String) {a b : Tree} (h : Shuffled a b) :
      Shuffled (function name a) (function name b)
  /-- The operands of both trees can be paired. -/
  | joined {c : Connective} {ts us : List Tree} {pairs : List (Tree × Tree)}
      (hts : ts.Perm (pairs.map Prod.fst)) (hus : us.Perm (pairs.map Prod.snd))
      (hc : c = .juxtaposition → ts = pairs.map Prod.fst ∧ us = pairs.map Prod.snd)
      (h : ∀ p ∈ pairs, Shuffled p.1 p.2) : Shuffled (joined c ts) (joined c us)
  | group (bracketed : Bool) {a b : Tree} (h : Shuffled a b) :
      Shuffled (group a bracketed) (group b bracketed)
  | multiplied (m : Multiplier) {a b : Tree} (h : Shuffled a b) :
      Shuffled (multiplied a m) (multiplied b m)

/-- The same text, or two texts whose trees differ in the order of operands. -/
def ShuffledText (text text' : String) : Prop :=
  text = text' ∨ ∃ t u, Tree.ofText text = .ok t ∧ Tree.ofText text' = .ok u ∧ t.Shuffled u

/-- The catalogs define the same names, up to the order of operands in the definitions. -/
structure Catalog.Shuffled (k k' : Catalog) : Prop where
  settings : k.settings = k'.settings
  dataTypes : ∀ name, Option.Rel ShuffledText (k.dataTypes.get? name) (k'.dataTypes.get? name)
  properties : ∀ name, Option.Rel ShuffledText (k.properties.get? name) (k'.properties.get? name)

namespace Tree.Shuffled

theorem refl (t : Tree) : t.Shuffled t := by
  match t with
  | .keyword text => exact .keyword text
  | .symbol text quoted => exact .symbol text quoted
  | .reference name range property => exact .reference name range property
  | .number text unit => exact .number text unit
  | .function name a => exact .function name (refl a)
  | .joined c ts =>
    have hfst : (ts.map fun t => (t, t)).map Prod.fst = ts := by simp [Function.comp_def]
    have hsnd : (ts.map fun t => (t, t)).map Prod.snd = ts := by simp [Function.comp_def]
    refine .joined (.of_eq hfst.symm) (.of_eq hsnd.symm) (fun _ => ⟨hfst.symm, hsnd.symm⟩) ?_
    intro p hp
    obtain ⟨t, ht, rfl⟩ := List.mem_map.mp hp
    have hlt := List.sizeOf_lt_of_mem ht
    exact refl t
  | .group a bracketed => exact .group bracketed (refl a)
  | .multiplied a m => exact .multiplied m (refl a)
termination_by sizeOf t
decreasing_by
  all_goals
    simp only [function.sizeOf_spec, joined.sizeOf_spec, group.sizeOf_spec, multiplied.sizeOf_spec]
    omega

theorem of_perm {c : Connective} {ts us : List Tree} (hc : c ≠ .juxtaposition) (h : ts.Perm us) :
    (Tree.joined c ts).Shuffled (.joined c us) := by
  have hfst : (ts.map fun t => (t, t)).map Prod.fst = ts := by simp [Function.comp_def]
  have hsnd : (ts.map fun t => (t, t)).map Prod.snd = ts := by simp [Function.comp_def]
  refine .joined (.of_eq hfst.symm) (hsnd.symm ▸ h.symm) (fun h => absurd h hc) fun p hp => ?_
  obtain ⟨t, -, rfl⟩ := List.mem_map.mp hp
  exact refl t

theorem symm {t u : Tree} (h : t.Shuffled u) : u.Shuffled t := by
  induction h with
  | keyword text => exact .keyword text
  | symbol text quoted => exact .symbol text quoted
  | reference name range property => exact .reference name range property
  | number text unit => exact .number text unit
  | function name _ ih => exact .function name ih
  | @joined c ts us pairs hts hus hc _ ih =>
    have hfst : (pairs.map Prod.swap).map Prod.fst = pairs.map Prod.snd := by simp
    have hsnd : (pairs.map Prod.swap).map Prod.snd = pairs.map Prod.fst := by simp
    refine .joined (hfst ▸ hus) (hsnd ▸ hts) (fun h => hfst ▸ hsnd ▸ (hc h).symm) fun p hp => ?_
    obtain ⟨q, hq, rfl⟩ := List.mem_map.mp hp
    exact ih q hq
  | group bracketed _ ih => exact .group bracketed ih
  | multiplied m _ ih => exact .multiplied m ih

end Tree.Shuffled

theorem ShuffledText.symm {text text' : String} (h : ShuffledText text text') :
    ShuffledText text' text := by
  rcases h with rfl | ⟨t, u, ht, hu, h⟩
  · exact Or.inl rfl
  · exact Or.inr ⟨u, t, hu, ht, h.symm⟩

theorem ShuffledText.exists_tree {text text' : String} {t : Tree} (h : ShuffledText text text')
    (ht : Tree.ofText text = .ok t) : ∃ u, Tree.ofText text' = .ok u ∧ t.Shuffled u := by
  rcases h with rfl | ⟨t', u, ht', hu, h⟩
  · exact ⟨t, ht, .refl t⟩
  · cases ht.symm.trans ht'
    exact ⟨u, hu, h⟩

theorem ShuffledText.rel_refl (a : Option String) : Option.Rel ShuffledText a a := by
  cases a with
  | none => exact .none
  | some text => exact .some (Or.inl rfl)

theorem ShuffledText.rel_symm {a b : Option String} (h : Option.Rel ShuffledText a b) :
    Option.Rel ShuffledText b a := by
  cases h with
  | none => exact .none
  | some h => exact .some h.symm

theorem ShuffledText.isSome_eq {a b : Option String} (h : Option.Rel ShuffledText a b) :
    a.isSome = b.isSome := by
  cases h <;> rfl

theorem ShuffledText.eq_none_of_rel {a b : Option String} (h : Option.Rel ShuffledText a b)
    (ha : a = none) : b = none := by
  cases h with
  | none => rfl
  | some h => cases ha

theorem ShuffledText.exists_of_rel {a b : Option String} (h : Option.Rel ShuffledText a b)
    {text : String} (ha : a = some text) : ∃ text', b = some text' ∧ ShuffledText text text' := by
  cases h with
  | none => cases ha
  | some h =>
    cases ha
    exact ⟨_, rfl, h⟩

theorem ShuffledText.rel_get? {t t' : Table String String}
    (h : List.Forall₂ (fun e e' => e.1 = e'.1 ∧ ShuffledText e.2 e'.2) t.entries t'.entries)
    (name : String) : Option.Rel ShuffledText (t.get? name) (t'.get? name) := by
  unfold Table.get?
  generalize t.entries = entries at h ⊢
  generalize t'.entries = entries' at h ⊢
  induction h with
  | nil => exact .none
  | @cons e e' _ _ he _ ih =>
    rw [Table.lookup_cons, Table.lookup_cons, he.1]
    split
    · exact .some he.2
    · exact ih

namespace Catalog.Shuffled

variable {k k' : Catalog}

theorem refl (k : Catalog) : k.Shuffled k where
  settings := rfl
  dataTypes _ := ShuffledText.rel_refl _
  properties _ := ShuffledText.rel_refl _

theorem symm (hk : k.Shuffled k') : k'.Shuffled k where
  settings := hk.settings.symm
  dataTypes name := ShuffledText.rel_symm (hk.dataTypes name)
  properties name := ShuffledText.rel_symm (hk.properties name)

theorem inlines_eq (hk : k.Shuffled k') : k.inlines = k'.inlines := by
  funext name
  have hcontains : k.properties.contains name = k'.properties.contains name :=
    ShuffledText.isSome_eq (hk.properties name)
  rw [inlines, inlines, hk.settings, hcontains]

theorem isKnownDataType_eq (hk : k.Shuffled k') : k.isKnownDataType = k'.isKnownDataType := by
  funext name
  have hcontains : k.dataTypes.contains name = k'.dataTypes.contains name :=
    ShuffledText.isSome_eq (hk.dataTypes name)
  rw [isKnownDataType, isKnownDataType, hcontains]

theorem enumerates_eq (hk : k.Shuffled k') (c : Connective) (n : Nat) :
    c.enumerates k n = c.enumerates k' n := by
  cases c <;> simp only [Connective.enumerates, hk.settings]

theorem keeps_eq (hk : k.Shuffled k') (c : Connective) (n : Nat) : c.keeps k n = c.keeps k' n := by
  unfold Connective.keeps
  rw [hk.enumerates_eq]

end Catalog.Shuffled

namespace Tree.Shuffled

section Pairs

variable {ts us : List Tree} {pairs : List (Tree × Tree)} {side : Tree × Tree → Tree}

theorem length_eq (hts : ts.Perm (pairs.map Prod.fst)) (hus : us.Perm (pairs.map Prod.snd)) :
    ts.length = us.length := by
  rw [hts.length_eq, hus.length_eq, List.length_map, List.length_map]

theorem exists_pair (h : ts.Perm (pairs.map side)) {t : Tree} (ht : t ∈ ts) :
    ∃ pair ∈ pairs, side pair = t :=
  List.mem_map.mp (h.mem_iff.mp ht)

theorem mem_of_pair (h : ts.Perm (pairs.map side)) {pair : Tree × Tree} (hp : pair ∈ pairs) :
    side pair ∈ ts :=
  h.mem_iff.mpr (List.mem_map_of_mem hp)

end Pairs

variable {k k' : Catalog} {t u : Tree} {name : String} {x : Shape}

theorem refers {p q : Connective → Nat → Prop} (hi : ∀ name, k.inlines name → k'.inlines name)
    (hpq : ∀ c n, p c n → q c n) (h : t.Shuffled u) (hr : Refers k p t name) :
    Refers k' q u name := by
  induction h with
  | keyword | symbol | number | function => nomatch hr
  | reference =>
    cases hr with
    | reference h => exact .reference (hi _ h)
  | joined hts hus _ _ ih =>
    cases hr with
    | @joined _ _ t _ hp ht hr =>
      obtain ⟨pair, hpair, rfl⟩ := exists_pair hts ht
      rw [length_eq hts hus] at hp
      exact .joined (hpq _ _ hp) (mem_of_pair hus hpair) (ih pair hpair hr)
  | group _ _ ih =>
    cases hr with
    | group hr => exact .group (ih hr)
  | multiplied _ _ ih =>
    cases hr with
    | multiplied hm hr => exact .multiplied hm (ih hr)

theorem own_eq (hk : k.Shuffled k') (h : t.Shuffled u) : t.own k = u.own k' := by
  induction h with
  | keyword | symbol | number => rw [own, own]
  | function => rw [own, own]
  | reference name range property =>
    cases property
    · rw [own, own, hk.isKnownDataType_eq]
    · rw [own, own, hk.inlines_eq]
  | @joined c ts us pairs hts hus _ _ ih =>
    have hlen : ts.length = us.length := length_eq hts hus
    have henum : c.enumerates k us.length = c.enumerates k' us.length := hk.enumerates_eq c _
    by_cases he : c.enumerates k us.length
    · apply ext_mem
      intro x
      have hoperand : (∃ t ∈ ts, x ∈ t.own k) ↔ ∃ u ∈ us, x ∈ u.own k' := by
        constructor
        · rintro ⟨t, ht, hx⟩
          obtain ⟨pair, hpair, rfl⟩ := exists_pair hts ht
          exact ⟨pair.2, mem_of_pair hus hpair, ih pair hpair ▸ hx⟩
        · rintro ⟨u, hu, hx⟩
          obtain ⟨pair, hpair, rfl⟩ := exists_pair hus hu
          exact ⟨pair.1, mem_of_pair hts hpair, ih pair hpair ▸ hx⟩
      rw [mem_own_joined (hlen ▸ he), mem_own_joined (henum ▸ he), hlen, hk.keeps_eq, hoperand]
    · rw [own, own, hlen, ← henum, if_neg he, if_neg he]
  | group bracketed _ ih =>
    cases bracketed
    · rw [own, own]
    · rw [own, own, ih]
  | multiplied m _ ih => rw [own, own, ih]

theorem supplied (hk : k.Shuffled k') (h : t.Shuffled u) (hs : t.Supplied k) : u.Supplied k' := by
  induction h with
  | keyword | symbol | number | function | reference => simp only [Supplied]
  | @joined c ts us pairs hts hus _ _ ih =>
    rw [Supplied, suppliedEach_iff] at hs ⊢
    rw [List.isEmpty_iff_length_eq_zero, length_eq hts hus, hk.enumerates_eq] at hs
    rw [List.isEmpty_iff_length_eq_zero]
    refine ⟨hs.1, fun he u hu => ?_⟩
    obtain ⟨pair, hpair, rfl⟩ := exists_pair hus hu
    exact ih pair hpair (hs.2 he _ (mem_of_pair hts hpair))
  | group bracketed _ ih =>
    cases bracketed
    · simp only [Supplied]
    · rw [Supplied] at hs ⊢
      exact ih hs
  | multiplied m _ ih =>
    rw [Supplied] at hs ⊢
    exact fun hm => ih (hs hm)

theorem supplied_iff (hk : k.Shuffled k') (h : t.Shuffled u) : t.Supplied k ↔ u.Supplied k' :=
  ⟨h.supplied hk, h.symm.supplied hk.symm⟩

theorem refers_iff {p q : Connective → Nat → Prop} (hk : k.Shuffled k')
    (hpq : ∀ c n, p c n = q c n) (h : t.Shuffled u) : Refers k p t name ↔ Refers k' q u name := by
  have hi : k.inlines = k'.inlines := hk.inlines_eq
  constructor
  · exact h.refers (fun _ hn => hi ▸ hn) fun c n hp => hpq c n ▸ hp
  · exact h.symm.refers (fun _ hn => hi ▸ hn) fun c n hp => (hpq c n).symm ▸ hp

theorem expands_iff (hk : k.Shuffled k') (h : t.Shuffled u) :
    t.Expands k name ↔ u.Expands k' name :=
  h.refers_iff hk fun c n => by rw [hk.enumerates_eq]

theorem contributes_iff (hk : k.Shuffled k') (h : t.Shuffled u) :
    t.Contributes k name ↔ u.Contributes k' name :=
  h.refers_iff hk hk.keeps_eq

theorem yields_iff (hk : k.Shuffled k') (h : t.Shuffled u) : t.Yields k x ↔ u.Yields k' x := by
  unfold Yields
  simp only [h.own_eq hk, hk.settings, h.contributes_iff hk]

end Tree.Shuffled

namespace Catalog.Shuffled

variable {k k' : Catalog} {t u : Tree} {name : String} {types : List Shape}

theorem exists_tree? (hk : k.Shuffled k') (ht : k.tree? name = some t) :
    ∃ u, k'.tree? name = some u ∧ t.Shuffled u := by
  obtain ⟨text, hget, -⟩ := Option.bind_eq_some_iff.mp ht
  obtain ⟨text', hget', htext⟩ := ShuffledText.exists_of_rel (hk.properties name) hget
  obtain ⟨u, hu, h⟩ := htext.exists_tree (ofText_of_tree? hget ht)
  exact ⟨u, tree?_eq_some hget' hu, h⟩

theorem exists_tree?_iff {p q : Tree → Prop} (hk : k.Shuffled k')
    (hpq : ∀ t u, t.Shuffled u → (p t ↔ q u)) :
    (∃ t, k.tree? name = some t ∧ p t) ↔ ∃ u, k'.tree? name = some u ∧ q u := by
  constructor
  · rintro ⟨t, ht, hp⟩
    obtain ⟨u, hu, h⟩ := hk.exists_tree? ht
    exact ⟨u, hu, (hpq t u h).mp hp⟩
  · rintro ⟨u, hu, hq⟩
    obtain ⟨t, ht, h⟩ := hk.symm.exists_tree? hu
    exact ⟨t, ht, (hpq t u h.symm).mpr hq⟩

theorem expands_eq (hk : k.Shuffled k') : k.Expands = k'.Expands := by
  ext a b
  exact hk.exists_tree?_iff fun _ _ h => h.expands_iff hk

theorem contributes_eq (hk : k.Shuffled k') : k.Contributes = k'.Contributes := by
  ext a b
  exact hk.exists_tree?_iff fun _ _ h => h.contributes_iff hk

theorem yields_eq (hk : k.Shuffled k') : k.Yields = k'.Yields := by
  ext a x
  exact hk.exists_tree?_iff fun _ _ h => h.yields_iff hk

theorem closure_eq (hk : k.Shuffled k') : k.Closure = k'.Closure := by
  ext a x
  unfold Closure Adds
  rw [hk.contributes_eq, hk.yields_eq]

theorem isSome_tree? (hk : k.Shuffled k') (h : (k.tree? name).isSome) :
    (k'.tree? name).isSome := by
  obtain ⟨t, ht⟩ := Option.isSome_iff_exists.mp h
  obtain ⟨u, hu, -⟩ := hk.exists_tree? ht
  exact Option.isSome_iff_exists.mpr ⟨u, hu⟩

end Catalog.Shuffled

/-- The final types of a definition do not depend on the order of operands, in it or in any
definition that it depends on. -/
theorem Settled.shuffled {k k' : Catalog} {t u : Tree} {types : List Shape} (hk : k.Shuffled k')
    (ht : t.Shuffled u) (h : Settled k t types) : Settled k' u types where
  sorted := h.sorted
  mem_iff x := by
    rw [h.mem_iff, Tree.Closure, Tree.Closure, hk.closure_eq, ht.yields_iff hk]
    simp only [ht.contributes_iff hk]
  nonempty hf := h.nonempty (hk.settings ▸ hf)
  readable name hn m hm := by
    rw [← hk.expands_eq] at hm
    exact hk.isSome_tree? (h.readable name ((ht.expands_iff hk).mpr hn) m hm)

end ValueSyntax
