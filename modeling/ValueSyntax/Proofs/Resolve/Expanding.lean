import ValueSyntax.Proofs.Resolve.Confined
import ValueSyntax.Proofs.Resolve.Memory

namespace ValueSyntax

open Ascending Shapes Relation

/-- Expanding one of some properties below a path keeps the invariant. What its value lacks is
behind open references. -/
def Expanding (k : Catalog) (path : Set String) (names : String → Prop)
    (expand : String → String → Resolving Shapes) : Prop :=
  ∀ name referrer s, (k.inlines name → names name) → s.Below k path →
    Ensures (expand name referrer) s
      (fun v s' => s'.Below k path ∧ s.opened ⊆ s'.opened ∧
        (k.inlines name → Approximates k path s'.opened name v) ∧ (¬ k.inlines name → v = any))
      (Session.Below k path)

/-- What resolving a tree below a path comes to. -/
structure Gathered (k : Catalog) (path : Set String) (s : Session) (t : Tree) (shapes : Shapes)
    (s' : Session) : Prop where
  below : s'.Below k path
  opened : s.opened ⊆ s'.opened
  gathers : Gathers k t (Approximates k path s'.opened) shapes
  supplied : t.Supplied k

theorem Gathered.of_own {k : Catalog} {path : Set String} {s s' : Session} {t : Tree}
    {shapes : Shapes} (hown : t.own k = shapes) (he : ∀ name, ¬ t.Expands k name)
    (hsupplied : t.Supplied k) (hs : s'.Below k path) (ho : s'.opened = s.opened) :
    Gathered k path s t shapes s' :=
  ⟨hs, ho.ge, .of_own hown he, hsupplied⟩

theorem ensures_widened {w : Warning} {s : Session} {done : Shapes → Session → Prop}
    {failed : Session → Prop} : Ensures (widened w) s done failed ↔ done any (s.warn w) := by
  rw [widened, warn, Ensures.bind_iff, Ensures.modify_iff, Ensures.pure_iff]

section Tree

variable {k : Catalog} {path : Set String} {names : String → Prop}
  {expand : String → String → Resolving Shapes} {referrer : String}

open ValueSyntax.Tree

theorem ensures_reference (hexp : Expanding k path names expand) {name : String}
    {range : Option Range} {s : Session}
    (hn : ∀ m, (reference name range true).Expands k m → names m) (hs : s.Below k path) :
    Ensures ((reference name range true).shapes k expand referrer) s
      (Gathered k path s (reference name range true)) (Session.Below k path) := by
  rw [shapes]
  apply (hexp name referrer s (fun hi => hn name (.reference hi)) hs).imp
  rintro v s' ⟨hs', ho, happrox, hany⟩
  refine ⟨hs', ho, ?_, by simp [Supplied]⟩
  by_cases hi : k.inlines name
  · exact .reference hi (happrox hi)
  · rw [hany hi]
    refine .of_own (by rw [own, if_neg hi]) fun _ he => ?_
    cases he
    contradiction

theorem ensures_typeReference {name : String} {range : Option Range} {s : Session}
    (hs : s.Below k path) :
    Ensures ((reference name range false).shapes k expand referrer) s
      (Gathered k path s (reference name range false)) (Session.Below k path) := by
  rw [shapes]
  split
  · next hk =>
    rw [Ensures.pure_iff]
    refine .of_own (by rw [own, if_pos hk]) (fun _ he => ?_) (by simp [Supplied]) hs rfl
    cases he
  · next hk =>
    rw [ensures_widened]
    refine .of_own (by rw [own, if_neg hk]) (fun _ he => ?_) (by simp [Supplied]) hs.warn rfl
    cases he

theorem ensures_juxtaposed {t t' : Tree} {ts : List Tree} {s : Session} (hs : s.Below k path) :
    Ensures ((joined .juxtaposition (t :: t' :: ts)).shapes k expand referrer) s
      (Gathered k path s (joined .juxtaposition (t :: t' :: ts))) (Session.Below k path) := by
  have hc : ¬ Connective.juxtaposition.enumerates k (t :: t' :: ts).length := by
    simp [Connective.enumerates]
  rw [shapes, Ensures.pure_iff]
  · refine .of_own (by rw [own, if_neg hc]) (fun _ he => ?_) ?_ hs rfl
    · cases he
      contradiction
    · rw [Supplied]
      exact ⟨by simp, fun h => absurd h hc⟩
  · simp
  · simp

theorem ensures_multiplied {inner : Tree} {m : Multiplier} {s : Session}
    (hinner : m.max = some 1 → Ensures (inner.shapes k expand referrer) s
      (Gathered k path s inner) (Session.Below k path)) (hs : s.Below k path) :
    Ensures ((multiplied inner m).shapes k expand referrer) s
      (Gathered k path s (multiplied inner m)) (Session.Below k path) := by
  rw [shapes]
  split
  · next hm =>
    rw [Ensures.pure_iff]
    refine .of_own (by rw [own, if_pos hm]) (fun _ he => ?_) (by simp [Supplied, hm]) hs rfl
    cases he
    simp_all
  · next hm₀ =>
    split
    · next hm =>
      apply (hinner hm).imp
      intro v s' h
      refine ⟨h.below, h.opened, .multiplied hm h.gathers, ?_⟩
      rw [Supplied]
      exact fun _ => h.supplied
    · next hm =>
      rw [Ensures.pure_iff]
      refine .of_own (by rw [own, if_neg hm₀, if_neg hm]) (fun _ he => ?_)
        (by simp [Supplied, hm]) hs rfl
      cases he
      contradiction

theorem Gathered.single {t : Tree} {s s' : Session} {v : Shapes} (h : Gathered k path s t v s') :
    Gathered k path s (joined .juxtaposition [t]) v s' :=
  ⟨h.below, h.opened, .joined rfl (.cons h.gathers .nil), by
    simp [Supplied, SuppliedEach, h.supplied]⟩

theorem Gathered.group {t : Tree} {s s' : Session} {v : Shapes} (h : Gathered k path s t v s') :
    Gathered k path s (.group t true) v s' :=
  ⟨h.below, h.opened, .group h.gathers, by rw [Supplied]; exact h.supplied⟩

mutual

theorem ensures_shapes (hexp : Expanding k path names expand) : ∀ (t : Tree) (s : Session),
    (∀ name, t.Expands k name → names name) → s.Below k path →
      Ensures (t.shapes k expand referrer) s (Gathered k path s t) (Session.Below k path)
  | keyword _, s, _, hs | symbol _ _, s, _, hs | number _ _, s, _, hs | function _ _, s, _, hs
  | group _ false, s, _, hs => by
    rw [shapes, Ensures.pure_iff]
    exact .of_own (by rw [own]) (fun _ he => nomatch he) (by simp [Supplied]) hs rfl
  | reference _ _ true, _, hn, hs => ensures_reference hexp hn hs
  | reference _ _ false, _, _, hs => ensures_typeReference hs
  | joined .juxtaposition [], s, _, hs => by
    rw [shapes, Ensures.pure_iff]
    refine .of_own rfl (fun _ he => ?_) (by simp [Supplied, SuppliedEach]) hs rfl
    cases he with
    | joined _ ht => cases ht
  | joined .juxtaposition [t], s, hn, hs => by
    have ht : ∀ name, t.Expands k name → names name := fun name he =>
      hn name (.joined rfl (List.mem_singleton_self t) he)
    rw [shapes]
    exact (ensures_shapes hexp t s ht hs).imp fun _ _ => .single
  | joined .juxtaposition (_ :: _ :: _), _, _, hs => ensures_juxtaposed hs
  | joined .oneOf operands, s, hn, hs => ensures_joined hexp (by decide) hn hs
  | joined .anyOrder operands, s, hn, hs => ensures_joined hexp (by decide) hn hs
  | joined .allRequired operands, s, hn, hs => ensures_joined hexp (by decide) hn hs
  | group inner true, s, hn, hs => by
    rw [shapes]
    exact (ensures_shapes hexp inner s (fun name he => hn name (.group he)) hs).imp
      fun _ _ => .group
  | multiplied inner m, s, hn, hs =>
    ensures_multiplied
      (fun hm => ensures_shapes hexp inner s (fun name he => hn name (.multiplied hm he)) hs) hs

theorem ensures_joined (hexp : Expanding k path names expand) {c : Connective}
    (hc : c ≠ .juxtaposition) {operands : List Tree} {s : Session}
    (hn : ∀ name, (joined c operands).Expands k name → names name) (hs : s.Below k path) :
    Ensures ((joined c operands).shapes k expand referrer) s
      (Gathered k path s (joined c operands)) (Session.Below k path) := by
  rw [shapes_joined hc]
  split
  · exact hs
  · next hlen =>
    have hempty : operands.isEmpty → c = .juxtaposition := by
      intro he
      rw [List.isEmpty_iff.mp he] at hlen
      exact absurd rfl hlen
    split
    · next henum =>
      rw [Ensures.map_iff]
      have heach : ∀ t ∈ operands, ∀ name, t.Expands k name → names name :=
        fun t ht name he => hn name (.joined henum ht he)
      apply (ensures_shapesEach hexp operands s heach hs).imp
      rintro parts s' ⟨hs', ho, hparts, hsupplied⟩
      refine ⟨hs', ho, .joined henum hparts, ?_⟩
      rw [Supplied]
      exact ⟨hempty, fun _ => hsupplied⟩
    · next henum =>
      rw [ensures_widened]
      refine .of_own (by rw [own, if_neg henum]) (fun _ he => ?_) ?_ hs.warn rfl
      · cases he
        contradiction
      · rw [Supplied]
        exact ⟨hempty, fun h => absurd h henum⟩

theorem ensures_shapesEach (hexp : Expanding k path names expand) :
    ∀ (ts : List Tree) (s : Session), (∀ t ∈ ts, ∀ name, t.Expands k name → names name) →
      s.Below k path →
      Ensures (shapesEach k expand referrer ts) s
        (fun parts s' => s'.Below k path ∧ s.opened ⊆ s'.opened ∧
          Gathers.Each k (Approximates k path s'.opened) ts parts ∧ SuppliedEach k ts)
        (Session.Below k path)
  | [], s, _, hs => ⟨hs, subset_rfl, .nil, trivial⟩
  | t :: ts, s, hn, hs => by
    rw [shapesEach, Ensures.bind_iff]
    apply (ensures_shapes hexp t s (hn t (List.mem_cons_self ..)) hs).imp
    intro first s₁ h₁
    rw [Ensures.bind_iff]
    apply (ensures_shapesEach hexp ts s₁ (fun t' ht' => hn t' (List.mem_cons_of_mem _ ht'))
      h₁.below).imp
    rintro others s₂ ⟨hs₂, ho₂, heach, hsupplied⟩
    rw [Ensures.pure_iff]
    refine ⟨hs₂, h₁.opened.trans ho₂, .cons ?_ heach, h₁.supplied, hsupplied⟩
    exact h₁.gathers.mono fun _ _ _ hv => hv.mono ho₂

end

end Tree

theorem ensures_readTree {k : Catalog} {path : Set String} {source : Source} {s : Session}
    (hs : s.Below k path) :
    Ensures (readTree source) s
      (fun t s' => s'.Below k path ∧ s'.opened = s.opened ∧ Tree.ofText source.text = .ok t)
      (Session.Below k path) := by
  rw [readTree, Ensures.bind_iff, Ensures.get_iff]
  split
  · next t hl => exact ⟨hs.hitTree, rfl, hs.sound.trees _ _ hl⟩
  · split
    · exact hs
    · next t ht =>
      have ht := Source.tree_eq_ok_iff.mp ht
      exact ⟨⟨hs.sound.rememberTree ht, hs.opened⟩, rfl, ht⟩

/-- What resolving a text below a path comes to. -/
structure Resolves (k : Catalog) (path : Set String) (s : Session) (text : String)
    (types : List Shape) (s' : Session) : Prop where
  below : s'.Below k path
  opened : s.opened ⊆ s'.opened
  gathers : ∃ t shapes, Tree.ofText text = .ok t ∧ types = k.settings.finish shapes ∧
    Gathers k t (Approximates k path s'.opened) shapes

theorem ensures_resolveSource {k : Catalog} {path : Set String} {names : String → Prop}
    {expand : String → String → Resolving Shapes} {source : Source} {s : Session}
    (hexp : Expanding k path names expand)
    (hn : ∀ t, Tree.ofText source.text = .ok t → ∀ name, t.Expands k name → names name)
    (hs : s.Below k path) :
    Ensures (resolveSource k expand source) s (Resolves k path s source.text)
      (Session.Below k path) := by
  rw [resolveSource, Ensures.bind_iff]
  apply (ensures_readTree hs).imp
  rintro t s₁ ⟨hs₁, ho₁, ht⟩
  rw [Ensures.bind_iff]
  apply (ensures_shapes hexp t s₁ (hn t ht) hs₁).imp
  intro shapes s₂ h
  rw [Ensures.pure_iff]
  exact ⟨h.below, ho₁ ▸ h.opened, t, shapes, ht, rfl, h.gathers⟩

/-- What resolving an entry below a path comes to. -/
structure Answers (k : Catalog) (path : Set String) (s : Session) (entry : Entry) (text : String)
    (types : List Shape) (s' : Session) : Prop where
  below : s'.Below k path
  opened : s.opened ⊆ s'.opened
  settled : s'.opened = ∅ → ∃ t, Tree.ofText text = .ok t ∧ Settled k t types
  approximates : ∀ name, entry = .property name → Approximates k path s'.opened name (ofList types)

theorem Session.Below.close {k : Catalog} {path : List Entry} {entry : Entry} {s : Session}
    (h : s.Below k (propertiesOn (entry :: path))) :
    (s.close entry).Below k (propertiesOn path) := by
  refine ⟨h.sound.close, ?_⟩
  cases entry with
  | property name =>
    rw [Session.opened_close_property]
    intro m hm
    have hm' := h.opened hm.1
    rw [propertiesOn_cons_property] at hm'
    exact hm'.resolve_left hm.2
  | dataType name =>
    rw [Session.opened_close_dataType, ← propertiesOn_cons_dataType]
    exact h.opened

theorem Resolves.answers {k : Catalog} {path : List Entry} {entry : Entry} {text : String}
    {types : List Shape} {s s' : Session} (hdef : k.Defines entry text) (hentry : entry ∉ path)
    (hs : s.Below k (propertiesOn path))
    (h : Resolves k (propertiesOn (entry :: path)) s text types s') :
    Answers k (propertiesOn path) s entry text types (s'.close entry) := by
  obtain ⟨t, shapes, ht, rfl, hgathers⟩ := h.gathers
  have hbelow := h.below.close
  cases entry with
  | property name =>
    have htree := Catalog.tree?_eq_some hdef ht
    rw [propertiesOn_cons_property] at hgathers
    -- Of the open references, those to the property itself are closed now.
    have happrox : Approximates k (propertiesOn path) (s'.close (.property name)).opened name
        (ofList (k.settings.finish shapes)) := by
      refine .of_gathers htree hentry hgathers fun m hm => ?_
      by_cases hname : m = name
      · exact Or.inl hname
      · rw [Session.opened_close_property]
        exact Or.inr ⟨hm, hname⟩
    refine ⟨hbelow, fun m hm => ?_, fun hempty => ?_, fun name' he => ?_⟩
    · rw [Session.opened_close_property]
      refine ⟨h.opened hm, fun hname => hentry ?_⟩
      rw [← Set.mem_singleton_iff.mp hname]
      exact hs.opened hm
    · rw [hempty] at happrox
      exact ⟨t, ht, happrox.settled htree toList_ofList_finish⟩
    · cases he
      exact happrox
  | dataType name =>
    refine ⟨hbelow, h.opened, fun hempty => ?_, nofun⟩
    rw [show s'.opened = ∅ from hempty] at hgathers
    exact ⟨t, ht, .of_gathers hgathers⟩

section Entry

variable {k : Catalog} {path : List Entry} {entry : Entry} {text : String} {s s' : Session}
  {types : List Shape}

/-- A final list approximates whatever is open. -/
theorem Answers.of_settled (hdef : k.Defines entry text)
    (hpath : ∀ m ∈ propertiesOn path, ∃ name, entry = .property name ∧ TransGen k.Expands m name)
    (hsettled : ∃ t, Tree.ofText text = .ok t ∧ Settled k t types)
    (hs : s'.Below k (propertiesOn path)) (ho : s'.opened = s.opened) :
    Answers k (propertiesOn path) s entry text types s' := by
  refine ⟨hs, ho.ge, fun _ => hsettled, ?_⟩
  rintro name rfl
  obtain ⟨t, ht, hsettled⟩ := hsettled
  refine .of_settled (Catalog.tree?_eq_some hdef ht) hsettled fun m hm => ?_
  obtain ⟨_, he, hm⟩ := hpath m hm
  cases he
  exact hm

theorem Session.Below.enter (hs : s.Below k (propertiesOn path)) :
    (s.enter entry).Below k (propertiesOn (entry :: path)) := by
  refine ⟨hs.sound.enter, ?_⟩
  rw [Session.opened_enter]
  exact fun m hm => List.mem_cons_of_mem _ (hs.opened hm)

/-- Only what was found with nothing open goes into the memory. -/
theorem Answers.remembered (hdef : k.Defines entry text)
    (h : Answers k (propertiesOn path) s entry text types s') (hempty : s'.openCycles.isEmpty) :
    Answers k (propertiesOn path) s entry text types
      ((s'.rememberText text types).record entry types) := by
  obtain ⟨t, ht, hsettled⟩ := h.settled (Session.opened_eq_empty.mpr hempty)
  have hfinal := Catalog.Final.defined hdef ht hsettled
  exact ⟨⟨(h.below.sound.rememberText ht hsettled).record hfinal, h.below.opened⟩, h.opened,
    h.settled, h.approximates⟩

theorem ensures_resolveEntry {expand : String → String → Resolving Shapes}
    (hdef : k.Defines entry text) (hentry : entry ∉ path)
    (hpath : ∀ m ∈ propertiesOn path, ∃ name, entry = .property name ∧ TransGen k.Expands m name)
    (hexp : Expanding k (propertiesOn (entry :: path))
      (fun name => ∃ t, Tree.ofText text = .ok t ∧ t.Expands k name) expand)
    (hs : s.Below k (propertiesOn path)) :
    Ensures (resolveEntry k expand entry text) s (Answers k (propertiesOn path) s entry text)
      (Session.Below k (propertiesOn path)) := by
  rw [resolveEntry, Ensures.bind_iff, Ensures.get_iff]
  split
  · next types hl =>
    exact .of_settled hdef hpath ((hs.sound.entries _ _ hl).of_defines hdef) hs rfl
  · rw [Ensures.bind_iff, Ensures.get_iff]
    split
    · next types hl =>
      obtain ⟨t, ht, hsettled⟩ := hs.sound.texts _ _ hl
      simp only [Ensures.bind_iff, Ensures.modify_iff, Ensures.pure_iff]
      exact .of_settled hdef hpath ⟨t, ht, hsettled⟩
        ⟨hs.hitText.sound.record (.defined hdef ht hsettled), hs.opened⟩ rfl
    · rw [Ensures.bind_iff, Ensures.modify_iff, Ensures.bind_iff, Ensures.closing_iff]
      -- The entry is on the path while its text is resolved, and leaves it even on failure.
      refine (ensures_resolveSource hexp (fun t ht name he => ⟨t, ht, he⟩) hs.enter).mono ?_
        (fun _ h => h.close)
      intro types s₁ h₁
      have hopened := h₁.opened
      rw [Session.opened_enter] at hopened
      have h := Resolves.answers hdef hentry hs ⟨h₁.below, hopened, h₁.gathers⟩
      rw [Ensures.bind_iff, Ensures.get_iff]
      split
      · next hempty =>
        simp only [Ensures.bind_iff, Ensures.modify_iff, Ensures.pure_iff]
        exact h.remembered hdef hempty
      · exact h

end Entry

section Property

variable {k : Catalog} {path : List Entry} {name referrer : String} {s : Session}

theorem ensures_closedCycle (hp : .property name ∈ path) (hi : k.inlines name)
    (hchain : ∀ m ∈ propertiesOn path, TransGen k.Expands m name)
    (hs : s.Below k (propertiesOn path)) :
    Ensures (do warn (.cyclicProperty name referrer); modify (·.openCycle name); return any) s
      (fun v s' => s'.Below k (propertiesOn path) ∧ s.opened ⊆ s'.opened ∧
        (k.inlines name → Approximates k (propertiesOn path) s'.opened name v) ∧
        (¬ k.inlines name → v = any)) (Session.Below k (propertiesOn path)) := by
  simp only [warn, Ensures.bind_iff, Ensures.modify_iff, Ensures.pure_iff]
  refine ⟨⟨hs.sound.warn.openCycle, ?_⟩, ?_, fun _ => ?_, fun h => absurd hi h⟩
  · rw [Session.opened_openCycle]
    exact Set.insert_subset hp hs.opened
  · rw [Session.opened_openCycle]
    exact Set.subset_insert name s.opened
  · exact .of_cycle (by simp) (hchain name hp)

theorem chain_through {text : String} (hget : k.properties.get? name = some text)
    (hchain : ∀ m ∈ propertiesOn path, TransGen k.Expands m name) {c : String}
    (hc : ∃ t, Tree.ofText text = .ok t ∧ t.Expands k c) :
    ∀ m ∈ propertiesOn (.property name :: path), TransGen k.Expands m c := by
  obtain ⟨t, ht, hc⟩ := hc
  have hstep : k.Expands name c := ⟨t, Catalog.tree?_eq_some hget ht, hc⟩
  intro m hm
  rw [propertiesOn_cons_property] at hm
  rcases Set.mem_insert_iff.mp hm with rfl | hm
  · exact .single hstep
  · exact (hchain m hm).tail hstep

end Property

theorem ensures_expandProperty {k : Catalog} (path : List Entry) {names : String → Prop}
    (hpath : ∀ name, names name → ∀ m ∈ propertiesOn path, TransGen k.Expands m name) :
    Expanding k (propertiesOn path) names (expandProperty k path) := by
  intro name referrer s hn hs
  rw [expandProperty]
  split
  · next hi =>
    rw [Ensures.pure_iff]
    have hi : ¬ k.inlines name := by simp_all [Catalog.inlines]
    exact ⟨hs, subset_rfl, fun h => absurd h hi, fun _ => rfl⟩
  · next hinline =>
    split
    · next hget =>
      rw [ensures_widened]
      have hi : ¬ k.inlines name := by simp_all [Catalog.inlines, Table.contains]
      exact ⟨hs.warn, subset_rfl, fun h => absurd h hi, fun _ => rfl⟩
    · next text hget =>
      have hi : k.inlines name := by simp_all [Catalog.inlines, Table.contains]
      have hchain := hpath name (hn hi)
      split
      · next hp => exact ensures_closedCycle hp hi hchain hs
      · next hp =>
        -- The path grows by a property that was not on it, so the recursion ends.
        have hlt := Catalog.unexpanded_cons_lt hget hp
        have hdef : k.Defines (.property name) text := hget
        rw [Ensures.map_iff]
        apply (ensures_resolveEntry hdef hp (fun m hm => ⟨name, rfl, hchain m hm⟩)
          (ensures_expandProperty (.property name :: path) fun _ => chain_through hget hchain)
          hs).imp
        intro types s' h
        exact ⟨h.below, h.opened, fun _ => h.approximates name rfl, fun h => absurd hi h⟩
termination_by k.unexpanded path

end ValueSyntax
