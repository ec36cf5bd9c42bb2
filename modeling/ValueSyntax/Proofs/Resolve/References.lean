import Mathlib.Logic.Basic
import Mathlib.Logic.Relation
import ValueSyntax.Proofs.Resolve.Afresh
import ValueSyntax.Proofs.Shapes.Combine

namespace ValueSyntax

open Ascending Shapes Relation

/-- A reference to the property stands for the shapes of its definition. -/
def Catalog.inlines (k : Catalog) (name : String) : Bool :=
  k.settings.inlineProperties && k.properties.contains name

namespace Connective

/-- Whether the shapes of an operand are shapes of the whole. -/
def keeps (k : Catalog) (operands : Nat) (c : Connective) : Prop :=
  c.enumerates k operands ∧ (c = allRequired → operands = 1)

/-- Several operands in any order are also just a string. -/
def Widens (operands : Nat) (c : Connective) : Prop :=
  (c = anyOrder ∨ c = allRequired) ∧ 2 ≤ operands

theorem mem_combine {k : Catalog} {c : Connective} {parts : List Shapes}
    (h : c.enumerates k parts.length) {x : Shape} :
    x ∈ c.combine parts ↔
      (c.keeps k parts.length ∧ ∃ part ∈ parts, x ∈ part) ∨
        (x = .anyString ∧ c.Widens parts.length) := by
  have hlimit := k.settings.operandLimit_le
  cases c with
  | juxtaposition =>
    rcases parts with _ | ⟨part, _ | ⟨part', parts⟩⟩
    · simp [combine, mem_inSequence, Widens]
    · simp [combine, mem_inSequence, keeps, Widens, enumerates]
    · simp [enumerates] at h
  | oneOf => simp [combine, keeps, Widens, enumerates]
  | anyOrder =>
    have h' : parts.length ≤ k.settings.operandLimit := by simpa [enumerates] using h
    have hlen : parts.length < 64 := by unfold operandCeiling at hlimit; omega
    simp [combine, mem_inAnyOrder hlen, keeps, Widens, enumerates, h']
  | allRequired =>
    rcases parts with _ | ⟨part, _ | ⟨part', parts⟩⟩
    · have he : combine allRequired [] = empty := rfl
      simp [he, Widens]
    · have h' : enumerates k 1 allRequired := h
      simp [combine, allInAnyOrder_singleton, keeps, Widens, h']
    · simp [combine, mem_allInAnyOrder_of_two_le, keeps, Widens]

end Connective

section Chains

variable {α : Type} {r r' : α → α → Prop} {stop : α → Prop} {a b : α}

/-- If each edge of a graph is one of another graph or starts at a stop, then a chain in it is one
in the other graph, or the other graph leads to a stop. -/
theorem transGen_or_stops (step : ∀ a b, r' a b → r a b ∨ stop a) (h : TransGen r' a b) :
    TransGen r a b ∨ ∃ m, ReflTransGen r a m ∧ stop m := by
  induction h with
  | single h => exact (step _ _ h).imp .single (fun h => ⟨a, .refl, h⟩)
  | @tail b c _ h ih =>
    rcases ih with ih | ih
    · exact (step _ _ h).imp ih.tail (fun h => ⟨b, ih.to_reflTransGen, h⟩)
    · exact Or.inr ih

theorem reflTransGen_or_stops (step : ∀ a b, r' a b → r a b ∨ stop a) (h : ReflTransGen r' a b) :
    ReflTransGen r a b ∨ ∃ m, ReflTransGen r a m ∧ stop m := by
  rcases reflTransGen_iff_eq_or_transGen.mp h with rfl | h
  · exact Or.inl .refl
  · exact (transGen_or_stops step h).imp_left TransGen.to_reflTransGen

end Chains

namespace Tree

/-- A reference to an inlined property that is met through brackets, through multipliers that
repeat nothing, and through the connectives that let it pass. -/
inductive Refers (k : Catalog) (passes : Connective → Nat → Prop) : Tree → String → Prop
  | reference {name : String} {range : Option Range} (h : k.inlines name) :
      Refers k passes (reference name range true) name
  | joined {c : Connective} {operands : List Tree} {t : Tree} {name : String}
      (hp : passes c operands.length) (ht : t ∈ operands) (h : Refers k passes t name) :
      Refers k passes (joined c operands) name
  | group {inner : Tree} {name : String} (h : Refers k passes inner name) :
      Refers k passes (group inner true) name
  | multiplied {inner : Tree} {m : Multiplier} {name : String} (hm : m.max = some 1)
      (h : Refers k passes inner name) : Refers k passes (multiplied inner m) name

/-- The tree expands the property when it is resolved. -/
def Expands (k : Catalog) : Tree → String → Prop :=
  Refers k fun c operands => c.enumerates k operands

/-- The shapes of the property become shapes of the tree. -/
def Contributes (k : Catalog) : Tree → String → Prop :=
  Refers k fun c operands => c.keeps k operands

theorem Refers.mono {k : Catalog} {p q : Connective → Nat → Prop}
    (hpq : ∀ c n, p c n → q c n) {t : Tree} {name : String} (h : Refers k p t name) :
    Refers k q t name := by
  induction h with
  | reference h => exact .reference h
  | joined hp ht _ ih => exact .joined (hpq _ _ hp) ht ih
  | group _ ih => exact .group ih
  | multiplied hm _ ih => exact .multiplied hm ih

theorem Refers.inlines {k : Catalog} {p : Connective → Nat → Prop} {t : Tree} {name : String}
    (h : Refers k p t name) : k.inlines name := by
  induction h with
  | reference h => exact h
  | joined _ _ _ ih => exact ih
  | group _ ih => exact ih
  | multiplied _ _ ih => exact ih

theorem Contributes.expands {k : Catalog} {t : Tree} {name : String} (h : t.Contributes k name) :
    t.Expands k name :=
  Refers.mono (fun _ _ hk => hk.1) h

mutual

/-- The shapes of a tree whose inlined references are left out. -/
def own (k : Catalog) : Tree → Shapes
  | keyword text => singleton (.literal text)
  | symbol text quoted => if quoted then singleton (.literal text) else empty
  | number text unit => singleton (.ofNumber text unit)
  | reference name _ true => if k.inlines name then empty else any
  | reference name _ false => if k.isKnownDataType name then singleton (.dataType name) else any
  | function _ _ => any
  | joined c operands =>
    if c.enumerates k operands.length then c.combine (ownEach k operands) else any
  | group inner true => own k inner
  | group _ false => any
  | multiplied inner m =>
    if m.max = some 0 then empty else if m.max = some 1 then own k inner else any

def ownEach (k : Catalog) : List Tree → List Shapes
  | [] => []
  | t :: ts => own k t :: ownEach k ts

end

theorem ownEach_eq_map (k : Catalog) (ts : List Tree) : ownEach k ts = ts.map (own k) := by
  induction ts with
  | nil => rfl
  | cons t ts ih => simp [ownEach, ih]

theorem mem_own_joined {k : Catalog} {c : Connective} {operands : List Tree}
    (h : c.enumerates k operands.length) {x : Shape} :
    x ∈ (joined c operands).own k ↔
      (c.keeps k operands.length ∧ ∃ t ∈ operands, x ∈ t.own k) ∨
        (x = .anyString ∧ c.Widens operands.length) := by
  have hlen : (operands.map (own k)).length = operands.length := List.length_map _
  rw [own, if_pos h, ownEach_eq_map, Connective.mem_combine (by rw [hlen]; exact h), hlen]
  simp only [List.mem_map, exists_exists_and_eq_and]

/-- A reference is expanded in vain only under `&&`, which is just a string anyway. -/
theorem Expands.contributes_or {k : Catalog} {t : Tree} {name : String} (h : t.Expands k name) :
    t.Contributes k name ∨ .anyString ∈ t.own k := by
  induction h with
  | reference h => exact Or.inl (.reference h)
  | @joined c operands t name hp ht _ ih =>
    by_cases hk : c = .allRequired → operands.length = 1
    · rcases ih with ih | ih
      · exact Or.inl (.joined ⟨hp, hk⟩ ht ih)
      · exact Or.inr ((mem_own_joined hp).mpr (Or.inl ⟨⟨hp, hk⟩, t, ht, ih⟩))
    · rw [Classical.not_imp] at hk
      have hpos := List.length_pos_of_mem ht
      exact Or.inr ((mem_own_joined hp).mpr (Or.inr ⟨rfl, Or.inr hk.1, by omega⟩))
  | group _ ih => exact ih.imp .group (by simp [own])
  | multiplied hm _ ih => exact ih.imp (.multiplied hm) (by simp [own, hm])

/-- What a tree adds of its own to the shapes that its references contribute. -/
def Yields (k : Catalog) (t : Tree) (x : Shape) : Prop :=
  x ∈ t.own k ∨ (x = .anyString ∧ k.settings.fallbackOnEmpty ∧ (∀ y, y ∉ t.own k) ∧
    ∀ name, ¬ t.Contributes k name)

end Tree

namespace Catalog

/-- The tree of a property's definition, if it can be read. -/
def tree? (k : Catalog) (name : String) : Option Tree :=
  (k.properties.get? name).bind fun text => (Tree.ofText text).toOption

theorem tree?_eq_some {k : Catalog} {name text : String} {t : Tree}
    (h : k.properties.get? name = some text) (ht : Tree.ofText text = .ok t) :
    k.tree? name = some t := by
  simp [tree?, h, ht, Except.toOption]

theorem ofText_of_tree? {k : Catalog} {name text : String} {t : Tree}
    (h : k.properties.get? name = some text) (ht : k.tree? name = some t) :
    Tree.ofText text = .ok t := by
  rw [tree?, h, Option.bind_some] at ht
  cases hx : Tree.ofText text with
  | error e => simp [hx, Except.toOption] at ht
  | ok t' => simpa [hx, Except.toOption] using ht

def Expands (k : Catalog) (a b : String) : Prop := ∃ t, k.tree? a = some t ∧ t.Expands k b

def Contributes (k : Catalog) (a b : String) : Prop :=
  ∃ t, k.tree? a = some t ∧ t.Contributes k b

/-- What a property adds of its own. -/
def Yields (k : Catalog) (name : String) (x : Shape) : Prop :=
  ∃ t, k.tree? name = some t ∧ t.Yields k x

/-- What a property adds, itself or because its references come back to it. -/
def Adds (k : Catalog) (name : String) (x : Shape) : Prop :=
  k.Yields name x ∨ (x = .anyString ∧ TransGen k.Contributes name name)

/-- The shapes of a property: all that is added where contributing references lead. -/
def Closure (k : Catalog) (name : String) (x : Shape) : Prop :=
  ∃ m, ReflTransGen k.Contributes name m ∧ k.Adds m x

theorem Contributes.expands {k : Catalog} {a b : String} (h : k.Contributes a b) :
    k.Expands a b := by
  obtain ⟨t, ht, h⟩ := h
  exact ⟨t, ht, h.expands⟩

theorem Closure.head {k : Catalog} {a b : String} {x : Shape} (h : k.Contributes a b)
    (hb : k.Closure b x) : k.Closure a x := by
  obtain ⟨m, hm, hx⟩ := hb
  exact ⟨m, .head h hm, hx⟩

/-- A chain of expansions contributes, or one of its properties is just a string already. -/
theorem contributes_or_of_expands {k : Catalog} {a b : String} (h : TransGen k.Expands a b) :
    TransGen k.Contributes a b ∨
      ∃ m, ReflTransGen k.Contributes a m ∧ k.Yields m .anyString := by
  apply transGen_or_stops _ h
  rintro a b ⟨t, ht, h⟩
  exact h.contributes_or.imp (fun h => ⟨t, ht, h⟩) (fun h => ⟨t, ht, Or.inl h⟩)

/-- On a cycle of expansions any string is a shape, whether the cycle contributes or not. -/
theorem anyString_of_cycle {k : Catalog} {a : String} (h : TransGen k.Expands a a) :
    k.Closure a .anyString := by
  rcases contributes_or_of_expands h with h | ⟨m, hm, hx⟩
  · exact ⟨a, .refl, Or.inr ⟨rfl, h⟩⟩
  · exact ⟨m, hm, Or.inl hx⟩

end Catalog

def Tree.Closure (k : Catalog) (t : Tree) (x : Shape) : Prop :=
  t.Yields k x ∨ ∃ name, t.Contributes k name ∧ k.Closure name x

/-- A property has the shapes of its tree: a cycle through the property is also one through the
next property on it. -/
theorem Catalog.closure_iff {k : Catalog} {name : String} {t : Tree} (ht : k.tree? name = some t)
    {x : Shape} : k.Closure name x ↔ t.Closure k x := by
  constructor
  · rintro ⟨m, hm, hx⟩
    rcases ReflTransGen.cases_head hm with rfl | ⟨c, ⟨t', ht', hc⟩, hm⟩
    · rcases hx with ⟨t', ht', hx⟩ | ⟨rfl, hx⟩
      · cases ht.symm.trans ht'
        exact Or.inl hx
      · obtain ⟨c, ⟨t', ht', hc⟩, hback⟩ := TransGen.head'_iff.mp hx
        cases ht.symm.trans ht'
        exact Or.inr ⟨c, hc, name, hback, Or.inr ⟨rfl, hx⟩⟩
    · cases ht.symm.trans ht'
      exact Or.inr ⟨c, hc, m, hm, hx⟩
  · rintro (hx | ⟨c, hc, hx⟩)
    · exact ⟨name, .refl, Or.inl ⟨t, ht, hx⟩⟩
    · exact hx.head ⟨t, ht, hc⟩

end ValueSyntax
