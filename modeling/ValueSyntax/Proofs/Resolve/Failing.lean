import ValueSyntax.Proofs.Resolve.Stumbling
import ValueSyntax.Proofs.Resolve.Upheld

namespace ValueSyntax

open Catalog Relation

/-- The session remembers that the data type reaches the length. -/
def Session.Knows (s : Session) (name : String) : Prop := (name, true) ∈ s.lengths

namespace Catalog

/-- One of the searches from the data types stumbles. They are made one after another until one of
them finds the length. -/
def StumblesIn (k : Catalog) (known : String → Prop) : List String → Prop
  | [] => False
  | name :: names => k.Stumbles known [] [name] ∨ (k.Barren name ∧ StumblesIn k known names)

/-- There are no shapes, or the search for the length that starts from them stumbles. -/
def Doomed (k : Catalog) (known : String → Prop) : Except Failure (List Shape) → Prop
  | .error _ => True
  | .ok types => .length ∉ types ∧ k.StumblesIn known (dataTypeNames types)

/-- A search for the length that starts from the shapes can come to the data type. -/
def Leads (k : Catalog) (outcome : Except Failure (List Shape)) (m : String) : Prop :=
  ∃ types name, outcome = .ok types ∧ .dataType name ∈ types ∧ ReflTransGen k.Mentions name m

variable {k : Catalog} {known known' : String → Prop}

theorem StumblesIn.mono {names : List String} (h : k.StumblesIn known names)
    (hk : ∀ name ∈ names, ∀ m, ReflTransGen k.Mentions name m → known' m → known m) :
    k.StumblesIn known' names := by
  induction names with
  | nil => exact h
  | cons name names ih =>
    have hname := hk name (List.mem_cons_self ..)
    refine h.imp (fun h => h.mono fun n hn => ?_) fun ⟨hb, h⟩ => ⟨hb, ih h fun n hn => ?_⟩
    · rwa [List.mem_singleton.mp hn]
    · exact hk n (List.mem_cons_of_mem _ hn)

theorem Doomed.mono {outcome : Except Failure (List Shape)} (h : k.Doomed known outcome)
    (hk : ∀ m, k.Leads outcome m → known' m → known m) : k.Doomed known' outcome := by
  cases outcome with
  | error e => trivial
  | ok types =>
    refine ⟨h.1, h.2.mono fun name hn m hm => hk m ⟨types, name, rfl, ?_, hm⟩⟩
    exact mem_dataTypeNames.mp hn

end Catalog

/-- The session is ready, with nothing but certain data types remembered to reach the length. -/
structure Session.Recalls (k : Catalog) (known : String → Prop) (s : Session) : Prop where
  ready : s.Ready k
  knows : ∀ name, s.Knows name ↔ known name

variable {k : Catalog} {known : String → Prop} {s : Session} {name : String}

namespace Session

theorem Recalls.self (hs : s.Ready k) : s.Recalls k s.Knows := ⟨hs, fun _ => Iff.rfl⟩

theorem Recalls.of_lengths {s' : Session} (hs : s.Recalls k known) (hs' : s'.Ready k)
    (h : s'.lengths = s.lengths) : s'.Recalls k known :=
  ⟨hs', fun name => by rw [← hs.knows, Knows, Knows, h]⟩

theorem Recalls.of_below {s' : Session} (hs : s.Recalls k known) (hs' : s'.Below k ∅)
    (h : s'.lengths = s.lengths) : s'.Recalls k known :=
  hs.of_lengths ⟨hs', h ▸ hs.ready.lengths, h ▸ hs.ready.barren⟩ h

theorem Recalls.reachesLength (hs : s.Recalls k known) (h : known name) : k.ReachesLength name :=
  (hs.ready.lengths _ ((hs.knows name).mpr h)).mp rfl

theorem Recalls.not_known (hs : s.Recalls k known) (h : s.lengths.lookup name = none) :
    ¬ known name := by
  intro hk
  exact not_mem_of_lookup h (List.mem_map_of_mem ((hs.knows name).mpr hk))

theorem knows_rememberEach (names : List String) (n : String) :
    (names.foldl (rememberLength false) s).Knows n ↔ s.Knows n := by
  induction names generalizing s with
  | nil => rfl
  | cons name names ih =>
    rw [List.foldl_cons, ih]
    simp [Knows, rememberLength]

end Session

theorem ensures_types (hs : s.Recalls k known) :
    Ensures (dataTypeShapes k name) s
      (fun types s' => s'.Recalls k known ∧ dataTypeAfresh k name = .ok types)
      (fun _ => ¬ k.Readable name) := by
  have hkeeps := ((Kept.lengths k s.lengths).dataTypeShapes name).ensures ⟨hs.ready.midway, rfl⟩
  refine .intro (fun types s' hx => ?_) fun e s' hx => ?_
  · obtain ⟨hs', ht⟩ := (ensures_dataTypeShapes_of_ready name hs.ready).of_ok hx
    exact ⟨hs.of_lengths hs' (hkeeps.of_ok hx).2, ht⟩
  · rintro ⟨types, ht⟩
    exact not_readable_of_error hs.ready.midway hx types ht

/-- A search takes the same way as the walk, apart from what is barren. -/
theorem ensures_walk_throughStack {seen : List String}
    {follow : ∀ visited, unseen k.dataTypes.keys visited < unseen k.dataTypes.keys seen →
      List String → Resolving (Bool × List String)}
    (hfollow : ∀ visited hlt stack s, Session.Recalls k known s →
      Ensures (follow visited hlt stack) s (fun _ _ => ¬ k.Stumbles known visited stack)
        (fun _ => k.Stumbles known visited stack))
    {visited stack : List String}
    {hle : unseen k.dataTypes.keys visited ≤ unseen k.dataTypes.keys seen}
    (hs : s.Recalls k known) :
    Ensures (throughStack k seen follow visited hle stack) s
      (fun _ _ => ¬ k.Stumbles known visited stack) (fun _ => k.Stumbles known visited stack) := by
  induction stack generalizing visited s with
  | nil =>
    rw [throughStack, Ensures.pure_iff]
    exact Stumbles.not_nil
  | cons name stack ih =>
    rw [throughStack]
    split
    · next hn =>
      simp only [Stumbles.cons_of_mem hn]
      exact ih hs
    · next hn =>
      rw [Ensures.bind_iff, Ensures.get_iff]
      split
      · next hl =>
        rw [Ensures.pure_iff]
        exact Stumbles.not_cons_of_known hn ((hs.knows name).mp (s.mem_of_lookup hl))
      · next hl =>
        have hbarren := hs.ready.barren_of_lookup hl
        simp only [Stumbles.cons_of_barren (fun _ => hs.reachesLength) hbarren]
        exact ih hs
      · next hl =>
        have hk := hs.not_known hl
        rw [Ensures.bind_iff]
        apply (ensures_types hs).mono
        · rintro types s₁ ⟨hs₁, ht⟩
          split
          · next hmem =>
            rw [Ensures.pure_iff]
            exact Stumbles.not_cons_of_length hn ht hmem
          · next hmem =>
            simp only [Stumbles.cons_of_ok hn hk ht hmem]
            split
            · exact hfollow _ _ _ _ hs₁
            · next hd =>
              -- Without a definition it leads nowhere, and the search goes on with the stack.
              rw [dataTypeNames_eq_nil ht hd]
              exact ih hs₁
        · exact fun _ h => .unreadable hn hk h

theorem ensures_walk_searchLength {visited stack : List String} {s : Session}
    (hs : s.Recalls k known) :
    Ensures (searchLength k visited stack) s (fun _ _ => ¬ k.Stumbles known visited stack)
      (fun _ => k.Stumbles known visited stack) := by
  rw [searchLength]
  exact ensures_walk_throughStack (fun _ hlt _ _ hs' => ensures_walk_searchLength hs') hs
termination_by unseen k.dataTypes.keys visited

/-- A search that says no remembers nothing that a walk could end at. -/
theorem ensures_walk (hs : s.Recalls k known) :
    Ensures (dataTypeNeedsLength k name) s
      (fun needed s' => ¬ k.Stumbles known [] [name] ∧
        (needed = false → ∀ n, s'.Knows n ↔ known n))
      (fun _ => k.Stumbles known [] [name]) := by
  rw [dataTypeNeedsLength, Ensures.bind_iff, Ensures.get_iff]
  split
  · next needed hl =>
    rw [Ensures.pure_iff]
    refine ⟨?_, fun _ => hs.knows⟩
    cases needed with
    | true =>
      exact Stumbles.not_cons_of_known List.not_mem_nil ((hs.knows name).mp (s.mem_of_lookup hl))
    | false =>
      have hbarren := hs.ready.barren_of_lookup hl
      rw [Stumbles.cons_of_barren (fun _ => hs.reachesLength) hbarren]
      exact Stumbles.not_nil
  -- The search itself remembers nothing about lengths, only its caller does.
  · have hkeeps : Confines (fun s' => s'.Midway [] ∧ s'.lengths = s.lengths) (fun _ => True)
        (searchLength k [] [name]) :=
      .searchLength (fun name _ => (((Kept.lengths k s.lengths).dataTypeShapes name).imp
        fun _ _ => trivial).unnamed) _ _ fun _ _ => trivial
    rw [Ensures.bind_iff]
    apply ((ensures_walk_searchLength hs).and (hkeeps.ensures ⟨hs.ready.midway, rfl⟩)).mono
    · rintro ⟨found, visited⟩ s₁ ⟨hno, -, hlengths⟩
      cases found with
      | true =>
        simp only [if_true, Ensures.bind_iff, Ensures.modify_iff, Ensures.pure_iff]
        exact ⟨hno, by rintro ⟨⟩⟩
      | false =>
        simp only [Bool.false_eq_true, if_false, Ensures.bind_iff, Ensures.modify_iff,
          Ensures.pure_iff]
        refine ⟨hno, fun _ n => ?_⟩
        rw [Session.knows_rememberEach, ← hs.knows, Session.Knows, Session.Knows, hlengths]
    · exact fun _ h => h.1

theorem ensures_walk_any {names : List String} (hs : s.Recalls k known) :
    Ensures (anyNeedsLength k names) s (fun _ _ => ¬ k.StumblesIn known names)
      (fun _ => k.StumblesIn known names) := by
  induction names generalizing s with
  | nil =>
    rw [anyNeedsLength, Ensures.pure_iff]
    exact id
  | cons name names ih =>
    rw [anyNeedsLength, Ensures.bind_iff]
    apply ((ensures_walk hs).and (ensures_barren hs.ready)).mono
    · rintro needed s₁ ⟨⟨hno, hknows⟩, hs₁, hreach, hbarren⟩
      split
      · next h =>
        rw [Ensures.pure_iff]
        exact fun hstumbles => hstumbles.elim hno fun hb => hb.1.not_reachesLength (hreach h)
      · next h =>
        have h := Bool.not_eq_true _ ▸ h
        have heq : k.StumblesIn known (name :: names) ↔ k.StumblesIn known names := by
          simp [StumblesIn, hno, hbarren h]
        simp only [heq]
        exact ih ⟨hs₁, hknows h⟩
    · exact fun _ h => Or.inl h.1

theorem ensures_walk_resolution {types : List Shape} (hs : s.Recalls k known) :
    Ensures (resolution k types) s (fun _ _ => ¬ k.Doomed known (.ok types))
      (fun _ => k.Doomed known (.ok types)) := by
  rw [resolution, Ensures.bind_iff, needsLength]
  split
  · next h => exact fun hdoomed => hdoomed.1 h
  · next h =>
    have heq : k.Doomed known (.ok types) ↔ k.StumblesIn known (dataTypeNames types) :=
      and_iff_right h
    simp only [heq]
    exact ensures_walk_any hs

/-- The computation ends with the shapes of a definition, or there are none to end with. -/
structure Tells (k : Catalog) (x : Resolving (List Shape)) (has : List Shape → Prop) : Prop where
  unique : ∀ types types', has types → has types' → types = types'
  ends : ∀ known s, Session.Recalls k known s →
    Ensures x s (fun types s' => s'.Recalls k known ∧ has types) (fun _ => ∀ types, ¬ has types)

theorem Tells.ensures_resolution {x : Resolving (List Shape)} {has : List Shape → Prop}
    (h : Tells k x has) (hs : s.Recalls k known) :
    Ensures (x >>= resolution k) s
      (fun r _ => has r.types ∧ r.Right k ∧ ¬ k.Doomed known (.ok r.types))
      (fun _ => ∀ types, has types → k.Doomed known (.ok types)) := by
  rw [Ensures.bind_iff]
  refine (h.ends known s hs).mono ?_ fun _ hno types ht => absurd ht (hno types)
  rintro types s₁ ⟨hs₁, ht⟩
  refine ((ensures_walk_resolution hs₁).and (ValueSyntax.ensures_resolution types hs₁.ready)).mono
    ?_ ?_
  · rintro r s₂ ⟨hno, -, rfl, hright⟩
    exact ⟨ht, hright, hno⟩
  · rintro s₂ ⟨hdoomed, -⟩ types' ht'
    rwa [h.unique types' types ht' ht]

theorem Tells.ensures_walk {x : Resolving (List Shape)} {outcome : Except Failure (List Shape)}
    (h : Tells k x (outcome = .ok ·)) (hs : s.Recalls k known) :
    Ensures (x >>= resolution k) s (fun _ _ => ¬ k.Doomed known outcome)
      (fun _ => k.Doomed known outcome) := by
  refine (h.ensures_resolution hs).mono ?_ fun _ hdoomed => ?_
  · rintro r s₁ ⟨ht, -, hno⟩
    rwa [ht]
  · cases outcome with
    | error e => trivial
    | ok types => exact hdoomed types rfl

theorem tells_dataType (name : String) :
    Tells k (dataTypeShapes k name) (dataTypeAfresh k name = .ok ·) where
  unique _ _ ht ht' := Except.ok.inj (ht.symm.trans ht')
  ends _ _ hs := (ensures_types hs).mono (fun _ _ h => h) fun _ h types ht => h ⟨types, ht⟩

theorem tells_property {text : String} (hget : k.properties.get? name = some text) :
    Tells k (resolveEntry k (expandProperty k [.property name]) (.property name) text)
      (definitionAfresh k name text = .ok ·) where
  unique _ _ ht ht' := Except.ok.inj (ht.symm.trans ht')
  ends known s hs := by
    have hdef : k.Defines (.property name) text := hget
    have hkeeps := ((Kept.lengths k s.lengths).entry hdef).ensures ⟨hs.ready.midway, rfl⟩
    refine .intro (fun types s₁ hx => ?_) fun e s₁ hx => ?_
    · obtain ⟨hbelow, t, ht, hsettled⟩ := (ensures_entry hdef hs.ready.below).of_ok hx
      exact ⟨hs.of_below hbelow (hkeeps.of_ok hx).2, hsettled.definitionAfresh hget ht⟩
    · exact definitionAfresh_ne_ok_of_error hs.ready.midway hget hx

theorem ensures_walk_resolveDataType (hs : s.Recalls k known) :
    Ensures (resolveDataType k name) s (fun _ _ => ¬ k.Doomed known (dataTypeAfresh k name))
      (fun _ => k.Doomed known (dataTypeAfresh k name)) :=
  (tells_dataType name).ensures_walk hs

theorem resolveProperty_of_get? {text : String} (hget : k.properties.get? name = some text) :
    resolveProperty k name =
      some <$> (resolveEntry k (expandProperty k [.property name]) (.property name) text >>=
        resolution k) := by
  rw [resolveProperty, hget, map_bind]

theorem ensures_walk_resolveProperty {text : String} (hget : k.properties.get? name = some text)
    (hs : s.Recalls k known) :
    Ensures (resolveProperty k name) s
      (fun _ _ => ¬ k.Doomed known (definitionAfresh k name text))
      (fun _ => k.Doomed known (definitionAfresh k name text)) := by
  rw [resolveProperty_of_get? hget, Ensures.map_iff]
  exact (tells_property hget).ensures_walk hs

/-- A request about one name. -/
inductive Inquiry where
  | property (name : String)
  | dataType (name : String)
  | needsLength (name : String)

namespace Inquiry

def request : Inquiry → Request
  | property name => .property name
  | dataType name => .dataType name
  | needsLength name => .dataTypeNeedsLength name

/-- There are no shapes to answer with, or the search for the length stumbles. -/
def Doomed (k : Catalog) (known : String → Prop) : Inquiry → Prop
  | property name =>
    ∃ text, k.properties.get? name = some text ∧ k.Doomed known (definitionAfresh k name text)
  | dataType name => k.Doomed known (dataTypeAfresh k name)
  | needsLength name => k.Stumbles known [] [name]

/-- The search for the length can come to the data type. -/
def Searches (k : Catalog) (m : String) : Inquiry → Prop
  | property name =>
    ∃ text, k.properties.get? name = some text ∧ k.Leads (definitionAfresh k name text) m
  | dataType name => k.Leads (dataTypeAfresh k name) m
  | needsLength name => ReflTransGen k.Mentions name m

theorem Doomed.mono {known' : String → Prop} {q : Inquiry} (h : q.Doomed k known)
    (hk : ∀ m, q.Searches k m → known' m → known m) : q.Doomed k known' := by
  cases q with
  | property name =>
    obtain ⟨text, hget, h⟩ := h
    exact ⟨text, hget, h.mono fun m hm => hk m ⟨text, hget, hm⟩⟩
  | dataType name => exact Catalog.Doomed.mono h hk
  | needsLength name =>
    refine Stumbles.mono h fun n hn => ?_
    rwa [List.mem_singleton.mp hn]

theorem fails_iff (q : Inquiry) (hs : s.Recalls k known) :
    Fails (q.request.perform k) s ↔ q.Doomed k known := by
  cases q with
  | property name =>
    apply Ensures.fails_iff
    rw [request, Request.perform, Ensures.bind_iff]
    cases hget : k.properties.get? name with
    | none =>
      rw [resolveProperty, hget, Ensures.pure_iff]
      rintro ⟨text, h, _⟩
      cases hget.symm.trans h
    | some text =>
      have heq : (property name).Doomed k known ↔
          k.Doomed known (definitionAfresh k name text) := by
        simp [Doomed, hget]
      simp only [heq]
      apply (ensures_walk_resolveProperty hget hs).imp
      intro found s₁ h
      cases found <;> exact h
  | dataType name =>
    apply Ensures.fails_iff
    rw [request, Request.perform, Ensures.map_iff]
    exact ensures_walk_resolveDataType hs
  | needsLength name =>
    apply Ensures.fails_iff
    rw [request, Request.perform, Ensures.map_iff]
    exact (ensures_walk hs).imp fun _ _ h => h.1

end Inquiry

/-- A request about one name fails after a history exactly if there are no shapes to answer with or
the search for the length stumbles over a data type that cannot be read, given what the history has
left to know. So what fails after a history fails at the start as well, where nothing is known; and
what fails at the start fails after the history, unless the search can come to what is known. -/
theorem failures_of_history (k : Catalog) (history : List Request) (q : Inquiry) :
    let s := k.sessionAfter history
    (Fails (q.request.perform k) s ↔ q.Doomed k s.Knows) ∧
    (Fails (q.request.perform k) s → Fails (q.request.perform k) {}) ∧
    ((∀ m, q.Searches k m → ¬ s.Knows m) → Fails (q.request.perform k) {} →
      Fails (q.request.perform k) s) := by
  intro s
  have hs : s.Recalls k s.Knows := .self (ready_sessionAfter k history)
  have hstart : Session.Recalls k (Session.Knows {}) {} := .self .start
  rw [q.fails_iff hs, q.fails_iff hstart]
  refine ⟨Iff.rfl, fun h => h.mono ?_, fun hno h => h.mono ?_⟩
  · exact fun _ _ hknows => absurd hknows List.not_mem_nil
  · exact fun m hm hknows => absurd hknows (hno m hm)

/-- `m` leads to a length by `a`, and before that by `p` to `b`, which cannot be read; `p` leads to
the length by `m`. -/
def masking : Catalog where
  dataTypes := .ofList [("m", "<a> | <p>"), ("p", "<b> | <m>"), ("a", "<length>"), ("b", "[")]
  properties := .ofList [("v", "<p>"), ("w", "<m>")]

/-- With one of these properties resolved first the other one does not fail. -/
theorem history_hides_failure :
    Fails ((Inquiry.property "w").request.perform masking) {} ∧
      ¬ Fails ((Inquiry.property "w").request.perform masking)
        (masking.sessionAfter [.property "v"]) := by
  decide +kernel

end ValueSyntax
