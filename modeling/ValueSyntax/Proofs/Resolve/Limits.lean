import Mathlib.Order.MinMax
import ValueSyntax.Proofs.Resolve.Closure

namespace ValueSyntax

open Ascending Shapes Relation

/-- The catalog with another limit of operands. -/
def Catalog.limited (k : Catalog) (limit : Nat) : Catalog :=
  { k with settings := { k.settings with maxOperands := limit } }

@[simp] theorem Catalog.dataTypes_limited (k : Catalog) (limit : Nat) :
    (k.limited limit).dataTypes = k.dataTypes := rfl

@[simp] theorem Catalog.properties_limited (k : Catalog) (limit : Nat) :
    (k.limited limit).properties = k.properties := rfl

/-- More types than before, but any string only if it was one already. -/
structure Gains (types types' : List Shape) : Prop where
  subset : types ⊆ types'
  anyString : .anyString ∈ types' → .anyString ∈ types

theorem Gains.refl (types : List Shape) : Gains types types := ⟨fun _ hx => hx, id⟩

section Limits

variable {k k' : Catalog} {low high : Nat}

theorem Connective.enumerates_limited (hle : low ≤ high) {c : Connective} {operands : Nat}
    (h : c.enumerates (k.limited low) operands) : c.enumerates (k.limited high) operands := by
  have hlimit : (k.limited low).settings.operandLimit ≤ (k.limited high).settings.operandLimit :=
    min_le_min_right operandCeiling hle
  cases c with
  | juxtaposition => exact h
  | oneOf => rfl
  | anyOrder | allRequired =>
    simp only [enumerates, decide_eq_true_eq] at h ⊢
    exact h.trans hlimit

namespace Tree

/-- Operands of any other connective than `|` are just a string, enumerated or not. -/
theorem anyString_mem_own_joined {c : Connective} {operands : List Tree}
    (hc : c ≠ .oneOf) (hlen : 2 ≤ operands.length) : .anyString ∈ (joined c operands).own k := by
  by_cases h : c.enumerates k operands.length
  · refine (mem_own_joined h).mpr (Or.inr ⟨rfl, ?_, hlen⟩)
    cases c with
    | juxtaposition =>
      have hle : operands.length ≤ 1 := by simpa [Connective.enumerates] using h
      omega
    | oneOf => contradiction
    | anyOrder => exact Or.inl rfl
    | allRequired => exact Or.inr rfl
  · rw [own, if_neg h]
    exact mem_any.mpr rfl

/-- In the second catalog a tree has all shapes and references that it has in the first one. -/
structure Includes (k k' : Catalog) (t : Tree) : Prop where
  own : ∀ x ∈ t.own k, x ∈ t.own k'
  contributes : ∀ name, t.Contributes k name → t.Contributes k' name

/-- In the second catalog a tree has all that it has in the first one, and no more unless any string
is one of its shapes already. -/
structure Extends (k k' : Catalog) (t : Tree) : Prop where
  more : t.Includes k k'
  same : .anyString ∈ t.own k ∨ t.Includes k' k

theorem Includes.joined {c : Connective} {operands : List Tree}
    (henum : c.enumerates k operands.length → c.enumerates k' operands.length)
    (hlen : 2 ≤ operands.length) (h : ∀ t ∈ operands, t.Includes k k') :
    (joined c operands).Includes k k' where
  own x hx := by
    by_cases he : c.enumerates k operands.length
    · refine (mem_own_joined (henum he)).mpr ?_
      rcases (mem_own_joined he).mp hx with ⟨hk, t, ht, hx⟩ | hx
      · exact Or.inl ⟨⟨henum he, hk.2⟩, t, ht, (h t ht).own x hx⟩
      · exact Or.inr hx
    · have hc : c ≠ .oneOf := by
        rintro rfl
        exact he rfl
      rw [Tree.own, if_neg he] at hx
      cases mem_any.mp hx
      exact anyString_mem_own_joined hc hlen
  contributes name hcontr := by
    cases hcontr with
    | joined hk ht hcontr =>
      exact .joined ⟨henum hk.1, hk.2⟩ ht ((h _ ht).contributes name hcontr)

theorem Includes.congr {t inner : Tree} (h : inner.Includes k k')
    (hown : ∀ k, t.own k = inner.own k)
    (hrefs : ∀ k name, t.Contributes k name ↔ inner.Contributes k name) : t.Includes k k' where
  own x hx := by
    rw [hown] at hx ⊢
    exact h.own x hx
  contributes name hc := by
    rw [hrefs] at hc ⊢
    exact h.contributes name hc

theorem Extends.congr {t inner : Tree} (h : inner.Extends k k')
    (hown : ∀ k, t.own k = inner.own k)
    (hrefs : ∀ k name, t.Contributes k name ↔ inner.Contributes k name) : t.Extends k k' where
  more := h.more.congr hown hrefs
  same := h.same.imp (fun hany => hown k ▸ hany) fun hsame => hsame.congr hown hrefs

theorem Extends.of_same {t : Tree} (hown : t.own k = t.own k')
    (hrefs : ∀ name, t.Contributes k name ↔ t.Contributes k' name) : t.Extends k k' where
  more := ⟨fun _ hx => hown ▸ hx, fun name => (hrefs name).mp⟩
  same := Or.inr ⟨fun _ hx => hown ▸ hx, fun name => (hrefs name).mpr⟩

/-- Only `|` can be without any string, and it does not depend on the limit. -/
theorem Extends.joined {c : Connective} {operands : List Tree}
    (henum : c.enumerates k operands.length → c.enumerates k' operands.length)
    (hlen : 2 ≤ operands.length) (h : ∀ t ∈ operands, t.Extends k k') :
    (joined c operands).Extends k k' where
  more := .joined henum hlen fun t ht => (h t ht).more
  same := by
    by_cases hc : c = .oneOf
    · subst hc
      by_cases hany : ∃ t ∈ operands, .anyString ∈ t.own k
      · exact Or.inl ((mem_own_joined rfl).mpr (Or.inl ⟨⟨rfl, nofun⟩, hany⟩))
      · refine Or.inr (.joined (fun _ => rfl) hlen fun t ht => ?_)
        exact (h t ht).same.resolve_left fun hx => hany ⟨t, ht, hx⟩
    · exact Or.inl (anyString_mem_own_joined hc hlen)

theorem Proper.extends (hle : low ≤ high) {t : Tree} (h : t.Proper) :
    t.Extends (k.limited low) (k.limited high) := by
  induction h with
  | keyword | symbol | number | emptyFunction | function =>
    exact .of_same rfl fun _ => ⟨nofun, nofun⟩
  | reference name range property =>
    exact .of_same (by cases property <;> rfl)
      fun _ => ⟨fun | .reference h => .reference h, fun | .reference h => .reference h⟩
  -- A limit decides about operands only, all other trees are looked into alike.
  | joined hlen _ ih => exact .joined (Connective.enumerates_limited hle) hlen ih
  | @group inner bracketed _ ih =>
    cases bracketed with
    | true => exact ih.congr (fun _ => by rw [own]) fun _ _ => ⟨fun | .group h => h, .group⟩
    | false => exact .of_same rfl fun _ => ⟨nofun, nofun⟩
  | @multiplied inner m _ ih =>
    by_cases hm : m.max = some 1
    · exact ih.congr (fun _ => by simp [own, hm])
        fun _ _ => ⟨fun | .multiplied _ h => h, .multiplied hm⟩
    · exact .of_same (by simp only [own, if_neg hm])
        fun _ => ⟨fun | .multiplied h _ => absurd h hm, fun | .multiplied h _ => absurd h hm⟩

section Yields

variable {t : Tree} {name : String} {x : Shape}

theorem Extends.yields (h : t.Extends (k.limited low) (k.limited high))
    (hx : t.Yields (k.limited low) x) : t.Yields (k.limited high) x := by
  rcases hx with hx | ⟨rfl, hf, hempty, hnone⟩
  · exact Or.inl (h.more.own x hx)
  · have hsame := h.same.resolve_left (hempty _)
    exact Or.inr ⟨rfl, hf, fun y hy => hempty y (hsame.own y hy),
      fun name hc => hnone name (hsame.contributes name hc)⟩

theorem Extends.yields_anyString (h : t.Extends (k.limited low) (k.limited high))
    (hx : t.Yields (k.limited high) .anyString) : t.Yields (k.limited low) .anyString := by
  rcases h.same with hany | hsame
  · exact Or.inl hany
  · rcases hx with hx | ⟨-, hf, hempty, hnone⟩
    · exact Or.inl (hsame.own _ hx)
    · exact Or.inr ⟨rfl, hf, fun y hy => hempty y (h.more.own y hy),
        fun name hc => hnone name (h.more.contributes name hc)⟩

theorem Extends.contributes_or (h : t.Extends (k.limited low) (k.limited high))
    (hc : t.Contributes (k.limited high) name) :
    t.Contributes (k.limited low) name ∨ t.Yields (k.limited low) .anyString := by
  rcases h.same with hany | hsame
  · exact Or.inr (Or.inl hany)
  · exact Or.inl (hsame.contributes name hc)

end Yields

end Tree

namespace Catalog

variable {a b : String} {x : Shape}

theorem Yields.limited (hle : low ≤ high) (h : (k.limited low).Yields a x) :
    (k.limited high).Yields a x := by
  obtain ⟨t, ht, hx⟩ := h
  exact ⟨t, ht, ((proper_of_tree? ht).extends hle).yields hx⟩

theorem Yields.anyString_of_limited (hle : low ≤ high)
    (h : (k.limited high).Yields a .anyString) : (k.limited low).Yields a .anyString := by
  obtain ⟨t, ht, hx⟩ := h
  exact ⟨t, ht, ((proper_of_tree? ht).extends hle).yields_anyString hx⟩

theorem Contributes.limited (hle : low ≤ high) (h : (k.limited low).Contributes a b) :
    (k.limited high).Contributes a b := by
  obtain ⟨t, ht, hc⟩ := h
  exact ⟨t, ht, ((proper_of_tree? ht).extends hle).more.contributes b hc⟩

theorem Contributes.or_of_limited (hle : low ≤ high) (h : (k.limited high).Contributes a b) :
    (k.limited low).Contributes a b ∨ (k.limited low).Yields a .anyString := by
  obtain ⟨t, ht, hc⟩ := h
  exact (((proper_of_tree? ht).extends hle).contributes_or hc).imp
    (fun hc => ⟨t, ht, hc⟩) (fun hx => ⟨t, ht, hx⟩)

theorem Closure.limited (hle : low ≤ high) (h : (k.limited low).Closure a x) :
    (k.limited high).Closure a x := by
  obtain ⟨m, hm, hx⟩ := h
  have hedges : ∀ a b, (k.limited low).Contributes a b → (k.limited high).Contributes a b :=
    fun _ _ => .limited hle
  refine ⟨m, ReflTransGen.mono hedges _ _ hm, ?_⟩
  rcases hx with hx | ⟨rfl, hcycle⟩
  · exact Or.inl (hx.limited hle)
  · exact Or.inr ⟨rfl, TransGen.mono hedges _ _ hcycle⟩

/-- References that only the larger limit lets through, and the cycles they close, start where any
string is a shape already. -/
theorem Closure.anyString_of_limited (hle : low ≤ high)
    (h : (k.limited high).Closure a .anyString) : (k.limited low).Closure a .anyString := by
  have step : ∀ a b, (k.limited high).Contributes a b →
      (k.limited low).Contributes a b ∨ (k.limited low).Yields a .anyString :=
    fun _ _ hc => hc.or_of_limited hle
  obtain ⟨m, hm, hx⟩ := h
  rcases reflTransGen_or_stops step hm with hm | ⟨n, hn, hy⟩
  · rcases hx with hx | ⟨-, hcycle⟩
    · exact ⟨m, hm, Or.inl (hx.anyString_of_limited hle)⟩
    · rcases transGen_or_stops step hcycle with hcycle | ⟨n, hn, hy⟩
      · exact ⟨m, hm, Or.inr ⟨rfl, hcycle⟩⟩
      · exact ⟨n, hm.trans hn, Or.inl hy⟩
  · exact ⟨n, hn, Or.inl hy⟩

end Catalog

theorem Tree.Proper.closure_limited (hle : low ≤ high) {t : Tree} (ht : t.Proper) {x : Shape}
    (h : t.Closure (k.limited low) x) : t.Closure (k.limited high) x := by
  have hext := ht.extends (k := k) hle
  rcases h with hx | ⟨name, hc, hx⟩
  · exact Or.inl (hext.yields hx)
  · exact Or.inr ⟨name, hext.more.contributes name hc, hx.limited hle⟩

theorem Tree.Proper.anyString_of_limited (hle : low ≤ high) {t : Tree} (ht : t.Proper)
    (h : t.Closure (k.limited high) .anyString) : t.Closure (k.limited low) .anyString := by
  have hext := ht.extends (k := k) hle
  rcases h with hx | ⟨name, hc, hx⟩
  · exact Or.inl (hext.yields_anyString hx)
  · rcases hext.contributes_or hc with hc | hany
    · exact Or.inr ⟨name, hc, hx.anyString_of_limited hle⟩
    · exact Or.inl hany

section Types

variable {types types' : List Shape}

theorem Settled.gains (hle : low ≤ high) {t : Tree} (ht : t.Proper)
    (h : Settled (k.limited low) t types) (h' : Settled (k.limited high) t types') :
    Gains types types' where
  subset x hx := (h'.mem_iff x).mpr (ht.closure_limited hle ((h.mem_iff x).mp hx))
  anyString hx := (h.mem_iff _).mpr (ht.anyString_of_limited hle ((h'.mem_iff _).mp hx))

theorem gains_of_sourceAfresh (hle : low ≤ high) {source : Source}
    (h : sourceAfresh (k.limited low) (propertyAfresh (k.limited low) []) source = .ok types)
    (h' : sourceAfresh (k.limited high) (propertyAfresh (k.limited high) []) source = .ok types') :
    Gains types types' := by
  obtain ⟨t, s, ht, hs, rfl⟩ := sourceAfresh_eq_ok_iff.mp h
  obtain ⟨t', s', ht', hs', rfl⟩ := sourceAfresh_eq_ok_iff.mp h'
  cases ht.symm.trans ht'
  exact (Settled.of_gathers (gathers_afresh_nil hs)).gains hle (.of_text ht)
    (.of_gathers (gathers_afresh_nil hs'))

theorem gains_of_definitionAfresh (hle : low ≤ high) {name text : String}
    (hget : k.properties.get? name = some text)
    (h : definitionAfresh (k.limited low) name text = .ok types)
    (h' : definitionAfresh (k.limited high) name text = .ok types') : Gains types types' := by
  obtain ⟨t, ht, hsettled⟩ := settled_of_definitionAfresh (k := k.limited low) hget h
  obtain ⟨t', ht', hsettled'⟩ := settled_of_definitionAfresh (k := k.limited high) hget h'
  cases ht.symm.trans ht'
  exact hsettled.gains hle (.of_text ht) hsettled'

theorem gains_of_dataTypeAfresh (hle : low ≤ high) {name : String}
    (h : dataTypeAfresh (k.limited low) name = .ok types)
    (h' : dataTypeAfresh (k.limited high) name = .ok types') : Gains types types' := by
  unfold dataTypeAfresh at h h'
  rw [Catalog.dataTypes_limited] at h h'
  cases hb : Builtin.ofName? name with
  | some builtin =>
    rw [hb] at h h'
    cases h.symm.trans h'
    exact .refl _
  | none =>
    rw [hb] at h h'
    cases hget : k.dataTypes.get? name with
    | some text =>
      rw [hget] at h h'
      exact gains_of_sourceAfresh hle h h'
    | none =>
      rw [hget] at h h'
      cases h.symm.trans h'
      exact .refl _

end Types

namespace Catalog

variable {name m : String} {x : Shape} {types types' : List Shape}

theorem Lists.limited (hle : low ≤ high) (h : (k.limited low).Lists name x)
    (hr : (k.limited high).Readable name) : (k.limited high).Lists name x := by
  obtain ⟨types, ht, hx⟩ := h
  obtain ⟨types', ht'⟩ := hr
  exact ⟨types', ht', (gains_of_dataTypeAfresh hle ht ht').subset hx⟩

/-- Where all can be told with the larger limit, the smaller one leads nowhere else. -/
theorem Barren.mentions_limited (hle : low ≤ high) (hb : (k.limited high).Barren name)
    (h : ReflTransGen (k.limited low).Mentions name m) :
    ReflTransGen (k.limited high).Mentions name m := by
  induction h with
  | refl => exact .refl
  | @tail b c _ hbc ih => exact ih.tail (hbc.limited hle (hb b ih).1)

theorem Barren.not_reachesLength_limited (hle : low ≤ high) (hb : (k.limited high).Barren name) :
    ¬ (k.limited low).ReachesLength name := by
  rintro ⟨m, hm, hlength⟩
  obtain ⟨hreadable, hno⟩ := hb m (hb.mentions_limited hle hm)
  exact hno (hlength.limited hle hreadable)

theorem AllBarren.not_needsLength_limited (hle : low ≤ high) (hsub : types ⊆ types')
    (hb : (k.limited high).AllBarren types') : ¬ (k.limited low).NeedsLength types := by
  rintro (hlength | ⟨name, hname, hreach⟩)
  · exact hb.1 (hsub hlength)
  · exact (hb.2 name (hsub hname)).not_reachesLength_limited hle hreach

end Catalog

end Limits

inductive Request.OfDefinition : Request → Prop
  | property (name : String) : OfDefinition (.property name)
  | dataType (name : String) : OfDefinition (.dataType name)
  | text (source : Source) : OfDefinition (.text source)

theorem eq_ok_of_unlabelled {x : Except Failure (List Shape)} {types : List Shape}
    (h : (fun types => [((none : Option String), types)]) <$> x = .ok [(none, types)]) :
    x = .ok types := by
  obtain ⟨found, hx, heq⟩ := map_eq_ok_iff.mp h
  cases heq
  exact hx

theorem Request.OfDefinition.gains {k : Catalog} {low high : Nat} (hle : low ≤ high) {r : Request}
    (hr : r.OfDefinition) {types types' : List Shape}
    (h : r.typesAfresh (k.limited low) = .ok [(none, types)])
    (h' : r.typesAfresh (k.limited high) = .ok [(none, types')]) : Gains types types' := by
  cases hr with
  | property name =>
    simp only [typesAfresh, Catalog.properties_limited] at h h'
    cases hget : k.properties.get? name with
    | none =>
      rw [hget] at h
      cases h
    | some text =>
      rw [hget] at h h'
      exact gains_of_definitionAfresh hle hget (eq_ok_of_unlabelled h) (eq_ok_of_unlabelled h')
  | dataType name =>
    exact gains_of_dataTypeAfresh hle (eq_ok_of_unlabelled h) (eq_ok_of_unlabelled h')
  | text source =>
    exact gains_of_sourceAfresh hle (eq_ok_of_unlabelled h) (eq_ok_of_unlabelled h')

/-- With a larger limit of operands, a definition that is resolved with both limits has all the
types that it had and perhaps more, but not any string if it did not have it. What needed the length
parameter still needs it. What either session was asked before makes no difference. -/
theorem larger_limit_only_adds (k : Catalog) {low high : Nat} (hle : low ≤ high)
    (before before' : List Request) {r : Request} (hr : r.OfDefinition) {a b : Resolution}
    {s s' : Session}
    (ha : r.perform (k.limited low) ((k.limited low).sessionAfter before) = .ok (.resolved a) s)
    (hb : r.perform (k.limited high) ((k.limited high).sessionAfter before') =
      .ok (.resolved b) s') :
    a.types ⊆ b.types ∧ (.anyString ∈ a.types ↔ .anyString ∈ b.types) ∧
      (a.needsLength = true → b.needsLength = true) := by
  have hright := ((ensures_perform r (ready_sessionAfter _ before)).of_ok ha).2
  have hright' := ((ensures_perform r (ready_sessionAfter _ before')).of_ok hb).2
  have hgains := hr.gains hle hright.types hright'.types
  refine ⟨hgains.subset, ⟨fun hany => hgains.subset hany, hgains.anyString⟩, fun hneeds => ?_⟩
  have hmem : (none, a) ∈ (Reply.resolved a).resolutions := List.mem_singleton_self _
  have hmem' : (none, b) ∈ (Reply.resolved b).resolutions := List.mem_singleton_self _
  by_contra hno
  -- If nothing led to the length with the larger limit, nothing would with the smaller one.
  have hbarren := (hright'.rights _ hmem').barren (Bool.eq_false_iff.mpr hno)
  exact hbarren.not_needsLength_limited hle hgains.subset ((hright.rights _ hmem).needs hneeds)

/-- A property that refers to itself by way of the last of three operands. -/
def ramified : Catalog where
  dataTypes := .ofList [("d", "0q")]
  properties := .ofList [("p", "<d> | a || b || <'q'>"), ("q", "<'p'> | c")]

theorem larger_limit_only_adds_on_cycle : ∃ a b s s',
    (Request.property "p").perform (ramified.limited 2) ((ramified.limited 2).sessionAfter []) =
      .ok (.resolved a) s ∧
    (Request.property "p").perform (ramified.limited 3) ((ramified.limited 3).sessionAfter []) =
      .ok (.resolved b) s' ∧
    a.types ⊆ b.types ∧ (.anyString ∈ a.types ↔ .anyString ∈ b.types) ∧
    (a.needsLength = true → b.needsLength = true) := by
  have ha : Returns ((Request.property "p").perform (ramified.limited 2))
      ((ramified.limited 2).sessionAfter [])
      (.resolved ⟨[.anyString, .dataType "d"], true⟩) := by decide +kernel
  have hb : Returns ((Request.property "p").perform (ramified.limited 3))
      ((ramified.limited 3).sessionAfter []) (.resolved
        ⟨[.literal "a", .literal "b", .literal "c", .anyString, .dataType "d"], true⟩) := by
    decide +kernel
  obtain ⟨s, ha⟩ := ha
  obtain ⟨s', hb⟩ := hb
  exact ⟨_, _, s, s', ha, hb,
    larger_limit_only_adds ramified (by decide) [] [] (.property "p") ha hb⟩

end ValueSyntax
