import ValueSyntax.Proofs.Resolve.History

namespace ValueSyntax

open Ascending Shapes Relation

/-- The connectives that pass on the shapes of an operand to those who refer to the definition. -/
def Connective.Passes (k : Catalog) (c : Connective) (operands : Nat) : Prop :=
  c = .oneOf ∨ (c = .anyOrder ∧ operands ≤ k.settings.operandLimit)

namespace Tree

/-- The tree refers to an inlined property through `|`, brackets, multipliers with maximum one, and
`||` with not too many operands. -/
def Passes (k : Catalog) : Tree → String → Prop := Refers k (Connective.Passes k)

theorem Proper.contributes_iff {k : Catalog} {t : Tree} (ht : t.Proper) {name : String} :
    t.Contributes k name ↔ t.Passes k name := by
  constructor
  · intro h
    induction h with
    | reference h => exact .reference h
    | @joined c operands t name hp hmem _ ih =>
      cases ht with
      | joined hlen hproper =>
        refine .joined ?_ hmem (ih (hproper t hmem))
        obtain ⟨henum, hall⟩ := hp
        cases c with
        | oneOf => exact Or.inl rfl
        | anyOrder => exact Or.inr ⟨rfl, by simpa [Connective.enumerates] using henum⟩
        | allRequired => exact absurd (hall rfl) (by omega)
        | juxtaposition =>
          have hle : operands.length ≤ 1 := by simpa [Connective.enumerates] using henum
          omega
    | group _ ih =>
      cases ht with
      | group ht => exact .group (ih ht)
    | multiplied hm _ ih =>
      cases ht with
      | multiplied ht => exact .multiplied hm (ih ht)
  · apply Refers.mono
    intro c n hp
    rcases hp with rfl | ⟨rfl, hle⟩
    · exact ⟨rfl, by simp⟩
    · exact ⟨by simpa [Connective.enumerates] using hle, by simp⟩

/-- A tree whose contributing references give nothing has its own shapes. -/
theorem shapesAfresh_eq_own {k : Catalog} {t : Tree} {expand : String → Except Failure Shapes}
    {referrer : String} (ht : t.Supplied k)
    (hempty : ∀ name, t.Contributes k name → expand name = .ok empty)
    (hok : ∀ name, t.Expands k name → ∃ v, expand name = .ok v)
    (hany : ∀ name, ¬ k.inlines name → expand name = .ok any) :
    t.shapesAfresh k expand referrer = .ok (t.own k) := by
  obtain ⟨s, hs⟩ := exists_shapesAfresh hany ht hok
  have hgathers := gathers_of_shapesAfresh hany hs
  have heq : s = t.own k := by
    apply ext_mem
    intro x
    refine ⟨fun hx => ?_, hgathers.own x⟩
    rcases hgathers.bounded x hx with hx | ⟨name, v, hc, hv, hx⟩
    · exact hx
    · cases (hempty name hc).symm.trans hv
      exact absurd hx (not_mem_empty x)
  rw [hs, heq]

end Tree

namespace Catalog

variable {k : Catalog} {a b : String} {x : Shape}

/-- A property's definition refers to another property and passes its shapes on. -/
def Passes (k : Catalog) (a b : String) : Prop := ∃ t, k.tree? a = some t ∧ t.Passes k b

/-- References that give nothing; those that are not inlined stand for any string as ever. What a
reference gives does not matter where nothing passes it on (`Tree.shapesAfresh_eq_own`). -/
def leftOut (k : Catalog) (name : String) : Except Failure Shapes :=
  .ok (if k.inlines name then empty else any)

/-- The shapes of a definition whose references are left out. With neither shapes nor references
that pass anything on, it may still allow any string. -/
def OwnShape (k : Catalog) (name : String) (x : Shape) : Prop :=
  ∃ t own, k.tree? name = some t ∧ t.shapesAfresh k k.leftOut name = .ok own ∧
    (x ∈ own ∨ (x = .anyString ∧ k.settings.fallbackOnEmpty ∧ (∀ y, y ∉ own) ∧
      ∀ m, ¬ t.Passes k m))

theorem proper_of_tree? {name : String} {t : Tree} (h : k.tree? name = some t) : t.Proper := by
  obtain ⟨text, hget, ht⟩ := Option.bind_eq_some_iff.mp h
  exact .of_text (ofText_of_tree? hget h)

theorem contributes_eq_passes : k.Contributes = k.Passes := by
  funext a b
  apply propext
  constructor
  · rintro ⟨t, ht, h⟩
    exact ⟨t, ht, (proper_of_tree? ht).contributes_iff.mp h⟩
  · rintro ⟨t, ht, h⟩
    exact ⟨t, ht, (proper_of_tree? ht).contributes_iff.mpr h⟩

theorem shapesAfresh_leftOut {t : Tree} (ht : t.Supplied k) {referrer : String} :
    t.shapesAfresh k k.leftOut referrer = .ok (t.own k) := by
  apply Tree.shapesAfresh_eq_own ht
  · intro name hc
    rw [leftOut, if_pos hc.inlines]
  · exact fun name _ => ⟨_, rfl⟩
  · intro name hn
    rw [leftOut, if_neg hn]

theorem yields_iff_ownShape : k.Yields a x ↔ k.OwnShape a x := by
  unfold Yields OwnShape Tree.Yields
  apply exists_congr
  intro t
  constructor
  · rintro ⟨ht, h⟩
    have hproper := proper_of_tree? ht
    refine ⟨t.own k, ht, shapesAfresh_leftOut hproper.supplied, ?_⟩
    simpa only [hproper.contributes_iff] using h
  · rintro ⟨own, ht, hown, h⟩
    have hproper := proper_of_tree? ht
    cases (shapesAfresh_leftOut hproper.supplied).symm.trans hown
    refine ⟨ht, ?_⟩
    simpa only [hproper.contributes_iff] using h

theorem closure_iff_passes : k.Closure a x ↔
    (∃ m, ReflTransGen k.Passes a m ∧ k.OwnShape m x) ∨
      (x = .anyString ∧ ∃ m, ReflTransGen k.Passes a m ∧ TransGen k.Passes m m) := by
  simp only [Closure, Adds, contributes_eq_passes, yields_iff_ownShape]
  constructor
  · rintro ⟨m, hm, hx | ⟨rfl, hcycle⟩⟩
    · exact Or.inl ⟨m, hm, hx⟩
    · exact Or.inr ⟨rfl, m, hm, hcycle⟩
  · rintro (⟨m, hm, hx⟩ | ⟨rfl, m, hm, hcycle⟩)
    · exact ⟨m, hm, Or.inl hx⟩
    · exact ⟨m, hm, Or.inr ⟨rfl, hcycle⟩⟩

theorem Closure.of_reaches (h : ReflTransGen k.Contributes a b) (hb : k.Closure b x) :
    k.Closure a x := by
  obtain ⟨m, hm, hx⟩ := hb
  exact ⟨m, h.trans hm, hx⟩

end Catalog

theorem closure_of_resolveProperty {k : Catalog} {s s' : Session} {name : String} {r : Resolution}
    (hs : s.Ready k) (h : resolveProperty k name s = .ok (some r) s') :
    (ofList r.types).toList = r.types ∧ ∀ x, x ∈ r.types ↔ k.Closure name x := by
  cases hget : k.properties.get? name with
  | none =>
    rw [resolveProperty, hget] at h
    cases h
  | some text =>
    obtain ⟨-, r', hr, hafresh, -⟩ := (ensures_resolveProperty hget hs).of_ok h
    cases hr
    obtain ⟨t, ht, hsettled⟩ := settled_of_definitionAfresh hget hafresh
    have htree := Catalog.tree?_eq_some hget ht
    exact ⟨hsettled.sorted, fun x => (hsettled.mem_iff x).trans (Catalog.closure_iff htree).symm⟩

/-- The shapes of a property are the own shapes of all properties that contributing references lead
to, and any string if they lead into a cycle. All properties on a cycle have the same. -/
theorem types_of_property (k : Catalog) (history : List Request) {name : String} {r : Resolution}
    {s : Session} (h : resolveProperty k name (k.sessionAfter history) = .ok (some r) s) :
    (∀ x, x ∈ r.types ↔ (∃ m, ReflTransGen k.Passes name m ∧ k.OwnShape m x) ∨
      (x = .anyString ∧ ∃ m, ReflTransGen k.Passes name m ∧ TransGen k.Passes m m)) ∧
    ∀ (history' : List Request) (name' : String) (r' : Resolution) (s' : Session),
      resolveProperty k name' (k.sessionAfter history') = .ok (some r') s' →
        ReflTransGen k.Passes name name' → ReflTransGen k.Passes name' name →
          r'.types = r.types := by
  obtain ⟨hsorted, hmem⟩ := closure_of_resolveProperty (ready_sessionAfter k history) h
  refine ⟨fun x => (hmem x).trans Catalog.closure_iff_passes, ?_⟩
  intro history' name' r' s' h' hto hback
  obtain ⟨hsorted', hmem'⟩ := closure_of_resolveProperty (ready_sessionAfter k history') h'
  -- On a cycle, each of the two properties leads to all that the other one leads to.
  rw [← Catalog.contributes_eq_passes] at hto hback
  have heq : ofList r'.types = ofList r.types := by
    apply ext_mem
    intro x
    rw [mem_ofList, mem_ofList, hmem, hmem']
    exact ⟨.of_reaches hto, .of_reaches hback⟩
  rw [← hsorted', heq, hsorted]

theorem types_of_property_on_cycle : ∃ r s r' s',
    resolveProperty entangled "p" (entangled.sessionAfter []) = .ok (some r) s ∧
    resolveProperty entangled "q" (entangled.sessionAfter [.property "p"]) = .ok (some r') s' ∧
    (∀ x, x ∈ r.types ↔ (∃ m, ReflTransGen entangled.Passes "p" m ∧ entangled.OwnShape m x) ∨
      (x = .anyString ∧ ∃ m, ReflTransGen entangled.Passes "p" m ∧ TransGen entangled.Passes m m)) ∧
    r'.types = r.types := by
  have hp : Returns (resolveProperty entangled "p") (entangled.sessionAfter [])
      (some ⟨[.literal "a", .anyString], false⟩) := by decide +kernel
  have hq : Returns (resolveProperty entangled "q") (entangled.sessionAfter [.property "p"])
      (some ⟨[.literal "a", .anyString], false⟩) := by decide +kernel
  have hto : entangled.Passes "p" "q" :=
    ⟨.reference "q" none true, by decide +kernel, .reference rfl⟩
  have hback : entangled.Passes "q" "p" := by
    refine ⟨.joined .oneOf [.reference "p" none true, .keyword "a"], by decide +kernel, ?_⟩
    exact .joined (Or.inl rfl) (List.mem_cons_self ..) (.reference rfl)
  obtain ⟨s, hr⟩ := hp
  obtain ⟨s', hr'⟩ := hq
  obtain ⟨hmem, hsame⟩ := types_of_property entangled [] hr
  exact ⟨_, s, _, s', hr, hr', hmem, hsame _ _ _ s' hr' (.single hto) (.single hback)⟩

end ValueSyntax
