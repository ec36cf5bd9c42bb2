import ValueSyntax.Proofs.Resolve.Declaring

namespace ValueSyntax

/-- The session after a request, whether it has been answered or has failed. -/
def Request.after (k : Catalog) (s : Session) (r : Request) : Session :=
  match r.perform k s with
  | .ok _ s' => s'
  | .error _ s' => s'

theorem Request.after_eq (k : Catalog) (s : Session) (r : Request) :
    r.after k s = leaves (r.perform k) s := by
  unfold Request.after leaves
  cases r.perform k s <;> rfl

/-- The session after a history of requests. -/
def Catalog.sessionAfter (k : Catalog) (history : List Request) : Session :=
  history.foldl (Request.after k) {}

/-- What holds at the start and after each request holds after a history. -/
theorem Catalog.sessionAfter_induction {inv : Session → Prop} (k : Catalog) (start : inv {})
    (after : ∀ s (r : Request), inv s → inv (r.after k s)) (history : List Request) :
    inv (k.sessionAfter history) := by
  unfold Catalog.sessionAfter
  suffices ∀ s, inv s → inv (history.foldl (Request.after k) s) from this _ start
  induction history with
  | nil => exact fun _ hs => hs
  | cons r history ih => exact fun s hs => ih _ (after s r hs)

/-- The resolution says truly whether it needs the length parameter, and it does not say no before
all that its data types lead to has been told. -/
structure Resolution.Right (k : Catalog) (r : Resolution) : Prop where
  needs : r.needsLength = true → k.NeedsLength r.types
  barren : r.needsLength = false → k.AllBarren r.types

theorem Resolution.Right.needsLength_iff {k : Catalog} {r : Resolution} (h : r.Right k) :
    r.needsLength = true ↔ k.NeedsLength r.types :=
  k.eq_true_iff_needsLength h.needs h.barren

theorem Session.Ready.start {k : Catalog} : Session.Ready k {} :=
  ⟨⟨.start, nofun⟩, nofun, nofun⟩

section Requests

variable {k : Catalog} {s : Session}

theorem ensures_resolution (types : List Shape) (hs : s.Ready k) :
    Ensures (resolution k types) s
      (fun r s' => s'.Ready k ∧ r.types = types ∧ r.Right k) (Session.Ready k) := by
  rw [resolution, Ensures.bind_iff]
  apply (ensures_allBarren types hs).imp
  rintro needed s' ⟨hs', hneeds, hbarren⟩
  rw [Ensures.pure_iff]
  exact ⟨hs', rfl, hneeds, hbarren⟩

theorem ensures_bind_resolution {x : Resolving (List Shape)} {done : List Shape → Prop}
    (h : Ensures x s (fun types s' => s'.Ready k ∧ done types) (Session.Ready k)) :
    Ensures (x >>= resolution k) s (fun r s' => s'.Ready k ∧ done r.types ∧ r.Right k)
      (Session.Ready k) := by
  rw [Ensures.bind_iff]
  apply h.imp
  rintro types s₁ ⟨hs₁, htypes⟩
  apply (ensures_resolution types hs₁).imp
  rintro r s₂ ⟨hs₂, rfl, hright⟩
  exact ⟨hs₂, htypes, hright⟩

theorem ensures_resolveProperty {name text : String} (hget : k.properties.get? name = some text)
    (hs : s.Ready k) :
    Ensures (resolveProperty k name) s
      (fun found s' => s'.Ready k ∧ ∃ r, found = some r ∧
        definitionAfresh k name text = .ok r.types ∧ r.Right k) (Session.Ready k) := by
  have hdef : k.Defines (.property name) text := hget
  rw [resolveProperty, hget, Ensures.bind_iff]
  apply (ensures_entry_of_ready hdef hs).imp
  rintro types s₁ ⟨hs₁, t, ht, hsettled⟩
  rw [Ensures.map_iff]
  apply (ensures_resolution types hs₁).imp
  rintro r s₂ ⟨hs₂, rfl, hright⟩
  exact ⟨hs₂, r, rfl, hsettled.definitionAfresh hget ht, hright⟩

theorem ensures_resolveDataType (name : String) (hs : s.Ready k) :
    Ensures (resolveDataType k name) s
      (fun r s' => s'.Ready k ∧ dataTypeAfresh k name = .ok r.types ∧ r.Right k)
      (Session.Ready k) :=
  ensures_bind_resolution (ensures_dataTypeShapes_of_ready name hs)

theorem ensures_resolveText (source : Source) (hs : s.Ready k) :
    Ensures (resolveText k source) s
      (fun r s' => s'.Ready k ∧ sourceAfresh k (propertyAfresh k []) source = .ok r.types ∧
        r.Right k) (Session.Ready k) :=
  ensures_bind_resolution (ensures_textShapes_of_ready source hs)

theorem ensures_resolveTree (t : Tree) (referrer : String) (hs : s.Ready k) :
    Ensures (resolveTree k t referrer) s
      (fun r s' => s'.Ready k ∧
        k.settings.finish <$> t.shapesAfresh k (propertyAfresh k []) referrer = .ok r.types ∧
        r.Right k) (Session.Ready k) := by
  rw [resolveTree, Ensures.bind_iff]
  apply (ensures_tree_of_ready t referrer hs).imp
  rintro shapes s₁ ⟨hs₁, hsupplied, hsettled⟩
  apply (ensures_resolution _ hs₁).imp
  rintro r s₂ ⟨hs₂, htypes, hright⟩
  obtain ⟨shapes', hshapes', hfinish⟩ := hsettled.shapesAfresh hsupplied referrer
  refine ⟨hs₂, ?_, hright⟩
  rw [hshapes', htypes, ← hfinish]
  rfl

theorem ensures_resolveProperties {entries : List (String × String)}
    (hmem : ∀ e ∈ entries, e ∈ k.properties.entries) (hs : s.Ready k) :
    Ensures (resolveProperties k (entries.map Prod.fst)) s
      (fun l s' => s'.Ready k ∧ (∀ e ∈ l, e.2.Right k) ∧
        (entries.mapM fun e => (fun types => (some e.1, types)) <$> definitionAfresh k e.1 e.2) =
          .ok (l.map fun e => (some e.1, e.2.types))) (Session.Ready k) := by
  induction entries generalizing s with
  | nil =>
    rw [List.map_nil, resolveProperties, Ensures.pure_iff]
    exact ⟨hs, nofun, rfl⟩
  | cons e entries ih =>
    rw [List.map_cons, resolveProperties, Ensures.bind_iff]
    have hget := Table.get?_of_mem (hmem e (List.mem_cons_self ..))
    apply (ensures_resolveProperty hget hs).imp
    rintro found s₁ ⟨hs₁, r, rfl, hafresh, hright⟩
    rw [Ensures.bind_iff]
    apply (ih (fun e' he' => hmem e' (List.mem_cons_of_mem _ he')) hs₁).imp
    rintro l s₂ ⟨hs₂, hrights, hafreshes⟩
    rw [Ensures.pure_iff]
    refine ⟨hs₂, List.forall_mem_cons.mpr ⟨hright, hrights⟩, ?_⟩
    rw [List.mapM_cons, hafresh, hafreshes]
    rfl

theorem ensures_resolveDataTypes (names : List String) (hs : s.Ready k) :
    Ensures (resolveDataTypes k names) s
      (fun l s' => s'.Ready k ∧ (∀ e ∈ l, e.2.Right k) ∧
        (names.mapM fun name => (fun types => (some name, types)) <$> dataTypeAfresh k name) =
          .ok (l.map fun e => (some e.1, e.2.types))) (Session.Ready k) := by
  induction names generalizing s with
  | nil =>
    rw [resolveDataTypes, Ensures.pure_iff]
    exact ⟨hs, nofun, rfl⟩
  | cons name names ih =>
    rw [resolveDataTypes, Ensures.bind_iff]
    apply (ensures_resolveDataType name hs).imp
    rintro r s₁ ⟨hs₁, hafresh, hright⟩
    rw [Ensures.bind_iff]
    apply (ih hs₁).imp
    rintro l s₂ ⟨hs₂, hrights, hafreshes⟩
    rw [Ensures.pure_iff]
    refine ⟨hs₂, List.forall_mem_cons.mpr ⟨hright, hrights⟩, ?_⟩
    rw [List.mapM_cons, hafresh, hafreshes]
    rfl

/-- What a reply says is right. -/
structure Reply.Right (k : Catalog) (request : Request) (reply : Reply) : Prop where
  types : request.typesAfresh k = .ok reply.types
  rights : ∀ e ∈ reply.resolutions, e.2.Right k

theorem Reply.Right.resolutions {request : Request} {reply : Reply} (h : reply.Right k request) :
    ∀ e ∈ reply.resolutions, e.2.needsLength = true ↔ k.NeedsLength e.2.types :=
  fun e he => (h.rights e he).needsLength_iff

theorem Reply.Right.resolved {request : Request} {r : Resolution}
    (h : request.typesAfresh k = .ok [(none, r.types)]) (hright : r.Right k) :
    Reply.Right k request (.resolved r) :=
  ⟨h, by simpa [Reply.resolutions] using hright⟩

theorem Reply.Right.resolvedEach {request : Request} {l : List (String × Resolution)}
    (h : request.typesAfresh k = .ok (l.map fun e => (some e.1, e.2.types)))
    (hrights : ∀ e ∈ l, e.2.Right k) : Reply.Right k request (.resolvedEach l) := by
  constructor
  · rw [h]
    simp [Reply.types, Reply.resolutions]
  · intro e he
    obtain ⟨e', he', rfl⟩ := List.mem_map.mp he
    exact hrights e' he'

theorem ensures_resolved {request : Request} {x : Resolving Resolution} {done : Resolution → Prop}
    (hx : Ensures x s (fun r s' => s'.Ready k ∧ done r ∧ r.Right k) (Session.Ready k))
    (htypes : ∀ r, done r → request.typesAfresh k = .ok [(none, r.types)]) :
    Ensures (Reply.resolved <$> x) s (fun reply s' => s'.Ready k ∧ reply.Right k request)
      (Session.Ready k) := by
  rw [Ensures.map_iff]
  apply hx.imp
  rintro r s₁ ⟨hs₁, hdone, hright⟩
  exact ⟨hs₁, .resolved (htypes r hdone) hright⟩

theorem ensures_perform_property (name : String) (hs : s.Ready k) :
    Ensures ((Request.property name).perform k) s
      (fun reply s' => s'.Ready k ∧ reply.Right k (.property name)) (Session.Ready k) := by
  rw [Request.perform, Ensures.bind_iff]
  cases hget : k.properties.get? name with
  | none =>
    rw [resolveProperty, hget, Ensures.pure_iff, Ensures.pure_iff]
    refine ⟨hs, ?_, nofun⟩
    rw [Request.typesAfresh, hget]
    rfl
  | some text =>
    apply (ensures_resolveProperty hget hs).imp
    rintro found s₁ ⟨hs₁, r, rfl, hafresh, hright⟩
    rw [Ensures.pure_iff]
    refine ⟨hs₁, .resolved ?_ hright⟩
    simp only [Request.typesAfresh, hget, hafresh]
    rfl

theorem ensures_readTree_of_ready (source : Source) (hs : s.Ready k) :
    Ensures (readTree source) s (fun _ s' => s'.Ready k) (Session.Ready k) := by
  have hkept := @Kept.readTree _ _ _ [] (Kept.lengths k s.lengths) source
  have hread : Ensures (readTree source) s (fun _ s' => s'.Below k ∅ ∧ True) (Session.Below k ∅) :=
    (ensures_readTree hs.below).imp fun _ _ h => ⟨h.1, trivial⟩
  exact (Ensures.ready hs hread hkept).imp fun _ _ h => h.1

theorem ensures_perform (r : Request) (hs : s.Ready k) :
    Ensures (r.perform k) s (fun reply s' => s'.Ready k ∧ reply.Right k r) (Session.Ready k) := by
  cases r with
  | property name => exact ensures_perform_property name hs
  | dataType name =>
    refine ensures_resolved (ensures_resolveDataType name hs) fun r hafresh => ?_
    rw [Request.typesAfresh, hafresh]
    rfl
  | text source =>
    refine ensures_resolved (ensures_resolveText source hs) fun r hafresh => ?_
    rw [Request.typesAfresh, hafresh]
    rfl
  | tree t referrer =>
    refine ensures_resolved (ensures_resolveTree t referrer hs) fun r hafresh => ?_
    obtain ⟨shapes, hshapes, htypes⟩ := map_eq_ok_iff.mp hafresh
    rw [Request.typesAfresh, hshapes, ← htypes]
    rfl
  | parsed source =>
    rw [Request.perform, Ensures.map_iff]
    exact (ensures_readTree_of_ready source hs).imp fun _ _ h => ⟨h, rfl, nofun⟩
  | allProperties =>
    rw [Request.perform, Ensures.map_iff]
    apply (ensures_resolveProperties (fun _ he => he) hs).imp
    rintro l s₁ ⟨hs₁, hrights, hafresh⟩
    exact ⟨hs₁, .resolvedEach hafresh hrights⟩
  | allDataTypes =>
    rw [Request.perform, Ensures.map_iff]
    apply (ensures_resolveDataTypes _ hs).imp
    rintro l s₁ ⟨hs₁, hrights, hafresh⟩
    exact ⟨hs₁, .resolvedEach hafresh hrights⟩
  | needsLength types =>
    rw [Request.perform, Ensures.map_iff]
    exact (ensures_needsLength types hs).imp fun _ _ h => ⟨h.1, rfl, nofun⟩
  | dataTypeNeedsLength name =>
    rw [Request.perform, Ensures.map_iff]
    exact (ensures_dataTypeNeedsLength hs).imp fun _ _ h => ⟨h.1, rfl, nofun⟩
  | normalize types =>
    rw [Request.perform, Ensures.map_iff]
    exact (ensures_normalize types hs).imp fun _ _ h => ⟨h.1, rfl, nofun⟩
  | reset =>
    rw [Request.perform, Ensures.bind_iff, Ensures.set_iff, Ensures.pure_iff]
    exact ⟨.start, rfl, nofun⟩

theorem ready_after (hs : s.Ready k) (r : Request) : (r.after k s).Ready k := by
  have h := ensures_perform r hs
  unfold Request.after
  split
  · next hr => exact (h.of_ok hr).1
  · next hr => exact h.of_error hr

theorem ready_sessionAfter (k : Catalog) (history : List Request) :
    (k.sessionAfter history).Ready k := by
  refine k.sessionAfter_induction .start (fun s r hs => ?_) history
  exact ready_after hs r

end Requests

/-- After any history, an answer gives the types that resolution afresh gives. -/
theorem types_of_perform (k : Catalog) (history : List Request) (r : Request) {reply : Reply}
    {s : Session} (h : r.perform k (k.sessionAfter history) = .ok reply s) :
    r.typesAfresh k = .ok reply.types :=
  ((ensures_perform r (ready_sessionAfter k history)).of_ok h).2.types

/-- Two properties that refer to each other, and two data types that do. -/
def entangled : Catalog where
  dataTypes := .ofList [("a", "<b>"), ("b", "<a>")]
  properties := .ofList [("p", "<'q'>"), ("q", "<'p'> | a")]

theorem types_of_perform_on_cycle : ∃ s,
    (Request.property "p").perform entangled
        (entangled.sessionAfter [.property "q", .text ⟨"x", "["⟩]) =
      .ok (.resolved ⟨[.literal "a", .anyString], false⟩) s ∧
    (Request.property "p").typesAfresh entangled = .ok [(none, [.literal "a", .anyString])] := by
  have h : Returns ((Request.property "p").perform entangled)
      (entangled.sessionAfter [.property "q", .text ⟨"x", "["⟩])
      (.resolved ⟨[.literal "a", .anyString], false⟩) := by decide +kernel
  obtain ⟨s, h⟩ := h
  exact ⟨s, h, types_of_perform entangled _ _ h⟩

/-- After any history, what is said about the length parameter is true, also in memory. A search
visits each data type at most once, so it ends. -/
theorem lengths_of_history (k : Catalog) (history : List Request) :
    (∀ e ∈ (k.sessionAfter history).lengths, e.2 = true ↔ k.ReachesLength e.1) ∧
    (∀ name answer s, searchLength k [] [name] (k.sessionAfter history) = .ok answer s →
      answer.2.Nodup) ∧
    (∀ name needed s, dataTypeNeedsLength k name (k.sessionAfter history) = .ok needed s →
      (needed = true ↔ k.ReachesLength name)) ∧
    (∀ types needed s, needsLength k types (k.sessionAfter history) = .ok needed s →
      (needed = true ↔ k.NeedsLength types)) ∧
    ∀ (r : Request) reply s, r.perform k (k.sessionAfter history) = .ok reply s →
      ∀ e ∈ reply.resolutions, e.2.needsLength = true ↔ k.NeedsLength e.2.types := by
  have hs := ready_sessionAfter k history
  refine ⟨hs.lengths, ?_, ?_, ?_, ?_⟩
  · intro name answer s h
    exact ((ensures_searchLength hs (.initial name)).of_ok h).2.nodup List.nodup_nil
  · intro name needed s h
    exact ((ensures_dataTypeNeedsLength hs).of_ok h).2
  · intro types needed s h
    exact ((ensures_needsLength types hs).of_ok h).2
  · intro r reply s h
    exact ((ensures_perform r hs).of_ok h).2.resolutions

theorem lengths_of_history_on_cycle :
    (∃ s, dataTypeNeedsLength entangled "a" (entangled.sessionAfter [.dataType "b"]) =
      .ok false s) ∧ ¬ entangled.ReachesLength "a" := by
  have h : Returns (dataTypeNeedsLength entangled "a") (entangled.sessionAfter [.dataType "b"])
      false := by decide +kernel
  obtain ⟨s, h⟩ := h
  refine ⟨⟨s, h⟩, fun hreach => ?_⟩
  have hneeded := ((lengths_of_history entangled _).2.2.1 "a" false s h).mpr hreach
  exact Bool.false_ne_true hneeded

/-- After any history, normalized shapes take the length if and only if the search says that they
need it. They are in order, no built-in data type is an alias among them, and each name is the name
of one alias at most. Neither order nor repetition of the shapes makes a difference. -/
theorem declared_of_history (k : Catalog) (history : List Request) {types : List Shape}
    {declared : List Declared} {s : Session}
    (h : normalize k types (k.sessionAfter history) = .ok declared s) :
    (∀ history' needed s', needsLength k types (k.sessionAfter history') = .ok needed s' →
      (needed = true ↔ .length ∈ declared ∨
        ∃ name generics, .named name generics ∈ declared ∧ generics ≠ [])) ∧
    declared.Pairwise (compare · · = .lt) ∧
    (∀ name generics, .named name generics ∈ declared → Builtin.ofName? name = none) ∧
    (declared.filterMap Declared.aliasName?).Nodup ∧
    ∀ history' types' declared' s', (∀ x, x ∈ types' ↔ x ∈ types) →
      normalize k types' (k.sessionAfter history') = .ok declared' s' → declared' = declared := by
  obtain ⟨-, rfl⟩ := (ensures_normalize types (ready_sessionAfter k history)).of_ok h
  refine ⟨?_, (k.declarations types).ascending, ?_, Catalog.nodup_aliasNames, ?_⟩
  · intro history' needed s' h'
    have hneeded := ((ensures_needsLength types (ready_sessionAfter k history')).of_ok h').2
    rw [hneeded, Catalog.needsLength_iff_takesLength]
    constructor
    · rintro ⟨d, hd, htakes⟩
      cases d with
      | length => exact Or.inl hd
      | named name generics => exact Or.inr ⟨name, generics, hd, htakes⟩
      | _ => exact htakes.elim
    · rintro (hd | ⟨name, generics, hd, hne⟩)
      · exact ⟨_, hd, trivial⟩
      · exact ⟨_, hd, hne⟩
  · intro name generics hd
    obtain ⟨x, _, hx⟩ := Catalog.mem_declarations.mp hd
    exact (Catalog.eq_of_declaration_eq_named hx).1
  · intro history' types' declared' s' hsame h'
    obtain ⟨-, rfl⟩ := (ensures_normalize types' (ready_sessionAfter k history')).of_ok h'
    rw [Catalog.declarations_congr hsame]

/-- A data type that has a length and refers to another one, which is without and refers to
itself. -/
def measured : Catalog where
  dataTypes := .ofList [("size", "<length> | <ratio>"), ("ratio", "<number> | <ratio>")]
  properties := .ofList []

def measures : List Shape := [.dataType "size", .dataType "ratio", .dataType "integer",
  .dataType "size", .anyString]

def declaredMeasures : List Declared := [.anyString, .anyNumber, .named "ratio" [],
  .named "size" [.length]]

/-- One of the shapes is named twice, and then each of them once and backwards. -/
theorem declared_of_history_repeated :
    Returns (normalize measured measures) (measured.sessionAfter []) declaredMeasures ∧
    Returns (normalize measured measures.tail.reverse)
      (measured.sessionAfter [.dataType "size"]) declaredMeasures ∧
    (declaredMeasures.filterMap Declared.aliasName?).Nodup ∧
    ∀ needed, Returns (needsLength measured measures) (measured.sessionAfter []) needed →
      needed = true := by
  have h : Returns (normalize measured measures) (measured.sessionAfter []) declaredMeasures := by
    decide +kernel
  have h' : ∃ declared, Returns (normalize measured measures.tail.reverse)
      (measured.sessionAfter [.dataType "size"]) declared := ⟨declaredMeasures, by decide +kernel⟩
  obtain ⟨s, hs⟩ := h
  obtain ⟨declared, s', hs'⟩ := h'
  obtain ⟨hneeds, -, -, hnodup, hsame⟩ := declared_of_history measured [] hs
  have hmem : ∀ x, x ∈ measures.tail.reverse ↔ x ∈ measures := by
    intro x
    simp [measures]
    tauto
  cases hsame _ _ _ _ hmem hs'
  refine ⟨⟨s, hs⟩, ⟨s', hs'⟩, hnodup, fun needed ⟨s'', hn⟩ => ?_⟩
  have hsize : Declared.named "size" [.length] ∈ declaredMeasures := by simp [declaredMeasures]
  exact (hneeds [] needed s'' hn).mpr (Or.inr ⟨"size", [.length], hsize, by simp⟩)

end ValueSyntax
