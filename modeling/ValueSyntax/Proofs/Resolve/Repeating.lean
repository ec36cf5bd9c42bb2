import ValueSyntax.Proofs.Resolve.Upheld

namespace ValueSyntax

/-- What one session remembers is remembered in a later one. -/
structure Session.GrowsTo (s s' : Session) : Prop where
  texts : s.texts <:+ s'.texts
  entries : s.entries <:+ s'.entries
  lengths : s.lengths <:+ s'.lengths

theorem exists_lookup_of_suffix {κ α : Type} [DecidableEq κ] {l m : Memo κ α} (h : l <:+ m)
    {key : κ} {a : α} (hl : l.lookup key = some a) : ∃ b, m.lookup key = some b := by
  obtain ⟨before, after, rfl, -⟩ := List.lookup_eq_some_iff.mp hl
  have hmem : (key, a) ∈ m := h.subset (by simp)
  cases hm : m.lookup key with
  | some b => exact ⟨b, rfl⟩
  | none => exact absurd (List.mem_map_of_mem hmem) (Session.not_mem_of_lookup hm)

namespace Session.GrowsTo

variable {k : Catalog} {s s' s'' : Session}

theorem refl (s : Session) : s.GrowsTo s :=
  ⟨List.suffix_rfl, List.suffix_rfl, List.suffix_rfl⟩

theorem trans (h : s.GrowsTo s') (h' : s'.GrowsTo s'') : s.GrowsTo s'' :=
  ⟨h.texts.trans h'.texts, h.entries.trans h'.entries, h.lengths.trans h'.lengths⟩

/-- Whatever has been asked before, memory only grows until it is reset. -/
theorem upheld (k : Catalog) (s : Session) :
    Upheld k fun path s' => s'.Midway path ∧ s.GrowsTo s' where
  midway h := h.1
  warn _ _ _ _ h := ⟨h.1.of_eq rfl rfl, h.2.texts, h.2.entries, h.2.lengths⟩
  catalog _ _ := trivial
  hitTree h := ⟨h.1.of_eq rfl rfl, h.2.texts, h.2.entries, h.2.lengths⟩
  rememberTree h _ ht := ⟨⟨lookup_rememberTree h.1.read ht, h.1.unfinished⟩, h.2.texts, h.2.entries,
    h.2.lengths⟩
  hitText h := ⟨h.1.of_eq rfl rfl, h.2.texts, h.2.entries, h.2.lengths⟩
  rememberText h _ _ := ⟨h.1.of_eq rfl rfl, h.2.texts.trans (List.suffix_cons ..), h.2.entries,
    h.2.lengths⟩
  rememberEntry h _ := ⟨⟨h.1.read, nofun⟩, h.2.texts, h.2.entries.trans (List.suffix_cons ..),
    h.2.lengths⟩
  record h _ hpath _ types := ⟨h.1.record hpath types, h.2.texts,
    h.2.entries.trans (List.suffix_cons ..), h.2.lengths⟩
  openCycle h _ := ⟨h.1.of_eq (by simp) (by simp), by simpa using h.2.texts,
    by simpa using h.2.entries, by simpa using h.2.lengths⟩
  enter h _ hnew := ⟨h.1.enter hnew, by simpa using h.2.texts, by simpa using h.2.entries,
    by simpa using h.2.lengths⟩
  close h _ := ⟨h.1.close, by simpa using h.2.texts, by simpa using h.2.entries,
    by simpa using h.2.lengths⟩
  rememberLength _ _ _ h := ⟨h.1.of_eq rfl rfl, h.2.texts, h.2.entries,
    h.2.lengths.trans (List.suffix_cons ..)⟩

theorem after (hs : s.Ready k) {r : Request} (hr : r ≠ .reset) : s.GrowsTo (r.after k s) :=
  ((upheld k s).after ⟨hs.midway, refl s⟩ fun h => absurd h hr).2

theorem lookup_entries (h : s.GrowsTo s') (hs : s.Sound k) (hs' : s'.Sound k) {entry : Entry}
    {types : List Shape} (hl : s.entries.lookup entry = some types) :
    s'.entries.lookup entry = some types := by
  obtain ⟨types', hl'⟩ := exists_lookup_of_suffix h.entries hl
  rw [hl', (hs.entries _ _ hl).unique (hs'.entries _ _ hl')]

theorem lookup_texts (h : s.GrowsTo s') (hs : s.Sound k) (hs' : s'.Sound k) {text : String}
    {types : List Shape} (hl : s.texts.lookup text = some types) :
    s'.texts.lookup text = some types := by
  obtain ⟨types', hl'⟩ := exists_lookup_of_suffix h.texts hl
  obtain ⟨t, ht, hsettled⟩ := hs.texts _ _ hl
  obtain ⟨t', ht', hsettled'⟩ := hs'.texts _ _ hl'
  cases ht.symm.trans ht'
  rw [hl', hsettled.unique hsettled']

theorem lookup_lengths (h : s.GrowsTo s') (hs : s.Ready k) (hs' : s'.Ready k) {name : String}
    {needed : Bool} (hl : s.lengths.lookup name = some needed) :
    s'.lengths.lookup name = some needed := by
  obtain ⟨needed', hl'⟩ := exists_lookup_of_suffix h.lengths hl
  have hsame : needed = true ↔ needed' = true :=
    (hs.of_lookup hl).trans (hs'.of_lookup hl').symm
  rw [hl', Bool.eq_iff_iff.mpr hsame]

end Session.GrowsTo

section Remembering

variable {k : Catalog} {s : Session}

theorem Session.Ready.openCycles_eq_nil (hs : s.Ready k) : s.openCycles = [] :=
  List.isEmpty_iff.mp (opened_eq_empty.mp (Set.subset_empty_iff.mp hs.below.opened))

/-- With no reference left open, the entry has been remembered. -/
theorem ensures_entry_remembered {expand : String → String → Resolving Shapes} {entry : Entry}
    {text : String} :
    Ensures (resolveEntry k expand entry text) s
      (fun types s' => s'.openCycles = [] → s'.entries.lookup entry = some types)
      fun _ => True := by
  rw [resolveEntry, Ensures.bind_iff, Ensures.get_iff]
  split
  · next types hl => exact fun _ => hl
  · rw [Ensures.bind_iff, Ensures.get_iff]
    split
    · simp [Session.record]
    · rw [Ensures.bind_iff, Ensures.modify_iff, Ensures.bind_iff]
      refine .intro (fun types s₁ _ => ?_) fun _ _ _ => trivial
      rw [Ensures.bind_iff, Ensures.get_iff]
      split
      · simp [Session.record, Session.rememberText]
      · next hopen =>
        rw [Ensures.pure_iff]
        intro hempty
        simp [hempty] at hopen

theorem ensures_text_remembered (source : Source) :
    Ensures (textShapes k source) s
      (fun types s' => s'.openCycles = [] → s'.texts.lookup source.text = some types)
      fun _ => True := by
  rw [textShapes, Ensures.bind_iff, Ensures.get_iff]
  split
  · next types hl =>
    simp only [Ensures.bind_iff, Ensures.modify_iff, Ensures.pure_iff]
    exact fun _ => hl
  · rw [Ensures.bind_iff]
    refine .intro (fun types s₁ _ => ?_) fun _ _ _ => trivial
    rw [Ensures.bind_iff, Ensures.get_iff]
    split
    · simp [Session.rememberText]
    · next hopen =>
      rw [Ensures.pure_iff]
      intro hempty
      simp [hempty] at hopen

theorem ensures_dataType_remembered {name : String} (hk : k.isKnownDataType name) :
    Ensures (dataTypeShapes k name) s
      (fun types s' => s'.openCycles = [] → s'.entries.lookup (.dataType name) = some types)
      fun _ => True := by
  rw [dataTypeShapes, Ensures.bind_iff, Ensures.get_iff]
  split
  · next types hl => exact fun _ => hl
  · split
    · simp [Session.rememberEntry]
    · next hb =>
      split
      · exact ensures_entry_remembered
      · next hget => simp [Catalog.isKnownDataType, Table.contains, hb, hget] at hk

theorem Session.keys_rememberEach (needed : Bool) (names : List String) (s : Session) :
    (names.foldl (Session.rememberLength needed) s).lengths.map Prod.fst =
      names.reverse ++ s.lengths.map Prod.fst := by
  induction names generalizing s with
  | nil => rfl
  | cons name names ih => rw [List.foldl_cons, ih]; simp [rememberLength]

theorem ensures_length_remembered {name : String} (hs : s.Ready k) :
    Ensures (dataTypeNeedsLength k name) s
      (fun _ s' => name ∈ s'.lengths.map Prod.fst) fun _ => True := by
  rw [dataTypeNeedsLength, Ensures.bind_iff, Ensures.get_iff]
  split
  · next needed hl => exact List.mem_map_of_mem (Session.mem_of_lookup hl)
  · rw [Ensures.bind_iff]
    apply (ensures_searchLength hs (.initial name)).mono _ fun _ _ => trivial
    rintro ⟨found, visited⟩ s₁ ⟨-, hfound⟩
    cases found with
    | true => simp [Session.rememberLength]
    | false =>
      have hname : name ∈ visited := hfound.stack rfl name (by simp)
      simp only [Bool.false_eq_true, if_false, Ensures.bind_iff, Ensures.modify_iff,
        Ensures.pure_iff, Session.keys_rememberEach]
      exact List.mem_append_left _ (List.mem_reverse.mpr hname)

end Remembering

/-- From now on the computation gives the answer, and changes nothing. -/
def Repeats {α : Type} (k : Catalog) (x : Resolving α) (a : α) (s : Session) : Prop :=
  ∀ s', s'.Ready k → s.GrowsTo s' → x s' = .ok a s'

/-- When the computation has succeeded once, doing it again is free. -/
def Lasting {α : Type} (k : Catalog) (x : Resolving α) : Prop :=
  ∀ s, s.Ready k → Ensures x s (fun a s' => s'.Ready k ∧ s.GrowsTo s' ∧ Repeats k x a s')
    fun _ => True

namespace Lasting

variable {k : Catalog} {α β : Type}

theorem pure (a : α) : Lasting k (Pure.pure a : Resolving α) :=
  fun s hs => ⟨hs, .refl s, fun _ _ _ => rfl⟩

/-- What comes later leaves what came first as it was. -/
theorem bind {x : Resolving β} {f : β → Resolving α} (hx : Lasting k x)
    (hf : ∀ b, Lasting k (f b)) : Lasting k (x >>= f) := by
  intro s hs
  rw [Ensures.bind_iff]
  apply (hx s hs).imp
  rintro b s₁ ⟨hs₁, hgrows₁, hx₁⟩
  apply (hf b s₁ hs₁).imp
  rintro a s₂ ⟨hs₂, hgrows₂, hf₂⟩
  refine ⟨hs₂, hgrows₁.trans hgrows₂, fun s' hs' hgrows => ?_⟩
  rw [bind_eq_of_ok (hx₁ s' hs' (hgrows₂.trans hgrows))]
  exact hf₂ s' hs' hgrows

theorem map {x : Resolving β} (hx : Lasting k x) (f : β → α) : Lasting k (f <$> x) := by
  rw [map_eq_pure_bind]
  exact hx.bind fun b => .pure _

theorem of_ensures {x : Resolving α} {fault : Failure → Prop}
    (hgrows : ∀ s₀, Confines (fun s => s.Midway [] ∧ Session.GrowsTo s₀ s) fault x)
    (hx : ∀ s, s.Ready k → Ensures x s (fun a s' => s'.Ready k ∧ Repeats k x a s')
      fun _ => True) : Lasting k x := by
  intro s hs
  have hends := (hgrows s).ensures ⟨hs.midway, .refl s⟩
  refine ((hx s hs).and hends).mono ?_ fun _ _ => trivial
  rintro a s' ⟨⟨hs', hrepeats⟩, -, hgrows⟩
  exact ⟨hs', hgrows, hrepeats⟩

/-- What ends with the final list of an entry is answered from memory. -/
theorem of_remembered {x : Resolving (List Shape)} {entry : Entry} {fault : Failure → Prop}
    {done : List Shape → Prop}
    (hgrows : ∀ s₀, Confines (fun s => s.Midway [] ∧ Session.GrowsTo s₀ s) fault x)
    (hready : ∀ s, s.Ready k →
      Ensures x s (fun types s' => s'.Ready k ∧ done types) (Session.Ready k))
    (hremembered : ∀ s, Ensures x s
      (fun types s' => s'.openCycles = [] → s'.entries.lookup entry = some types) fun _ => True)
    (hanswer : ∀ s types, s.entries.lookup entry = some types → x s = .ok types s) :
    Lasting k x := by
  refine .of_ensures hgrows fun s hs => ?_
  refine ((hready s hs).and (hremembered s)).mono ?_ fun _ _ => trivial
  rintro types s₁ ⟨⟨hs₁, -⟩, hl⟩
  refine ⟨hs₁, fun s' hs' hgrows => hanswer s' types ?_⟩
  exact hgrows.lookup_entries hs₁.below.sound hs'.below.sound (hl hs₁.openCycles_eq_nil)

theorem entry {entry : Entry} {text : String} (hdef : k.Defines entry text) :
    Lasting k (resolveEntry k (expandProperty k [entry]) entry text) := by
  refine .of_remembered (fun s₀ => (Session.GrowsTo.upheld k s₀).entry hdef)
    (fun s hs => ensures_entry_of_ready hdef hs) (fun s => ensures_entry_remembered)
    fun s types hl => ?_
  rw [resolveEntry, get_bind_at, hl]
  rfl

theorem dataTypeShapes {name : String} (hk : k.isKnownDataType name) :
    Lasting k (dataTypeShapes k name) := by
  refine .of_remembered (fun s₀ => (Session.GrowsTo.upheld k s₀).dataTypeShapes name)
    (fun s hs => ensures_dataTypeShapes_of_ready name hs) (fun s => ensures_dataType_remembered hk)
    fun s types hl => ?_
  rw [ValueSyntax.dataTypeShapes, get_bind_at, hl]
  rfl

theorem dataTypeNeedsLength (name : String) : Lasting k (dataTypeNeedsLength k name) := by
  refine .of_ensures (fun s₀ => (Session.GrowsTo.upheld k s₀).dataTypeNeedsLength name)
    fun s hs => ?_
  refine ((ensures_dataTypeNeedsLength hs).and (ensures_length_remembered hs)).mono ?_
    fun _ _ => trivial
  rintro needed s₁ ⟨⟨hs₁, hneeded⟩, hkey⟩
  refine ⟨hs₁, fun s' hs' hgrows => ?_⟩
  have hl : s₁.lengths.lookup name = some needed := by
    cases hl : s₁.lengths.lookup name with
    | none => exact absurd hkey (Session.not_mem_of_lookup hl)
    | some needed' => rw [Bool.eq_iff_iff.mpr ((hs₁.of_lookup hl).trans hneeded.symm)]
  rw [ValueSyntax.dataTypeNeedsLength, get_bind_at, hgrows.lookup_lengths hs₁ hs' hl]
  rfl

theorem anyNeedsLength : ∀ names : List String, Lasting k (anyNeedsLength k names)
  | [] => .pure _
  | name :: names => by
    refine .bind (dataTypeNeedsLength name) fun needed => ?_
    split
    · exact .pure _
    · exact anyNeedsLength names

theorem resolution (types : List Shape) : Lasting k (resolution k types) := by
  refine .bind ?_ fun needed => .pure _
  unfold needsLength
  split
  · exact .pure _
  · exact anyNeedsLength _

theorem resolveProperty (name : String) : Lasting k (resolveProperty k name) := by
  unfold ValueSyntax.resolveProperty
  split
  · exact .pure _
  · next text hget =>
    have hdef : k.Defines (.property name) text := hget
    exact .bind (entry hdef) fun types => .map (resolution types) _

theorem resolveProperties : ∀ names : List String, Lasting k (resolveProperties k names)
  | [] => .pure _
  | name :: names =>
    .bind (resolveProperty name) fun _ => .bind (resolveProperties names) fun _ => .pure _

theorem resolveDataType {name : String} (hk : k.isKnownDataType name) :
    Lasting k (resolveDataType k name) :=
  .bind (dataTypeShapes hk) fun types => resolution types

theorem resolveDataTypes : ∀ names : List String, (∀ name ∈ names, k.isKnownDataType name) →
    Lasting k (resolveDataTypes k names)
  | [], _ => .pure _
  | name :: names, h => by
    obtain ⟨hname, hnames⟩ := List.forall_mem_cons.mp h
    exact .bind (resolveDataType hname) fun _ =>
      .bind (resolveDataTypes names hnames) fun _ => .pure _

end Lasting

theorem ensures_text_repeats {k : Catalog} (source : Source) {s : Session} (hs : s.Ready k) :
    Ensures (resolveText k source) s
      (fun r s₁ => s₁.Ready k ∧ ∀ s', s'.Ready k → s₁.GrowsTo s' →
        resolveText k source s' = .ok r s'.hitText) fun _ => True := by
  rw [resolveText, Ensures.bind_iff]
  refine ((ensures_textShapes_of_ready source hs).and (ensures_text_remembered source)).mono ?_
    fun _ _ => trivial
  rintro types s₁ ⟨⟨hs₁, -⟩, hl⟩
  apply (Lasting.resolution types s₁ hs₁).imp
  rintro r s₂ ⟨hs₂, hgrows₂, hrepeats⟩
  refine ⟨hs₂, fun s' hs' hgrows => ?_⟩
  have hl' := (hgrows₂.trans hgrows).lookup_texts hs₁.below.sound hs'.below.sound
    (hl hs₁.openCycles_eq_nil)
  have htext : textShapes k source s' = .ok types s'.hitText := by
    rw [textShapes, get_bind_at, hl']
    rfl
  have hhit : s'.hitText.Ready k := ⟨hs'.below.hitText, hs'.lengths, hs'.barren⟩
  rw [bind_eq_of_ok htext]
  exact hrepeats _ hhit ⟨hgrows.texts, hgrows.entries, hgrows.lengths⟩

/-- The requests for what the catalog or the text defines. -/
inductive Request.Definite (k : Catalog) : Request → Prop
  | property (name : String) : Definite k (.property name)
  | dataType {name : String} (h : k.isKnownDataType name) : Definite k (.dataType name)
  | text (source : Source) : Definite k (.text source)
  | allProperties : Definite k .allProperties
  | allDataTypes : Definite k .allDataTypes

/-- All that a request changes when it is made again. -/
def Request.hit : Request → Session → Session
  | text _, s => s.hitText
  | _, s => s

theorem ensures_repeats {k : Catalog} {r : Request} (hr : r.Definite k) {s : Session}
    (hs : s.Ready k) :
    Ensures (r.perform k) s
      (fun reply s₁ => s₁.Ready k ∧ ∀ s', s'.Ready k → s₁.GrowsTo s' →
        r.perform k s' = .ok reply (r.hit s')) fun _ => True := by
  -- Only for a text of its own does a repeated request count a hit.
  have of_lasting (hperform : Lasting k (r.perform k)) (hhit : ∀ s', r.hit s' = s') :
      Ensures (r.perform k) s (fun reply s₁ => s₁.Ready k ∧ ∀ s', s'.Ready k → s₁.GrowsTo s' →
        r.perform k s' = .ok reply (r.hit s')) fun _ => True := by
    apply (hperform s hs).imp
    rintro reply s₁ ⟨hs₁, -, hrepeats⟩
    exact ⟨hs₁, fun s' hs' hgrows => by rw [hrepeats s' hs' hgrows, hhit]⟩
  cases hr with
  | property name =>
    refine of_lasting (.bind (.resolveProperty name) fun found => ?_) fun _ => rfl
    cases found <;> exact .pure _
  | dataType hk => exact of_lasting (.map (.resolveDataType hk) _) fun _ => rfl
  | allProperties => exact of_lasting (.map (.resolveProperties _) _) fun _ => rfl
  | allDataTypes =>
    exact of_lasting (.map (.resolveDataTypes _ fun _ => k.isKnownDataType_of_mem_keys) _)
      fun _ => rfl
  | text source =>
    rw [Request.perform, Ensures.map_iff]
    apply (ensures_text_repeats source hs).imp
    rintro r s₁ ⟨hs₁, hrepeats⟩
    exact ⟨hs₁, fun s' hs' hgrows => map_eq_of_ok (hrepeats s' hs' hgrows) _⟩

theorem Session.GrowsTo.afterEach {k : Catalog} {requests : List Request}
    (h : .reset ∉ requests) {s : Session} (hs : s.Ready k) :
    (requests.foldl (Request.after k) s).Ready k ∧
      s.GrowsTo (requests.foldl (Request.after k) s) := by
  induction requests generalizing s with
  | nil => exact ⟨hs, refl s⟩
  | cons r requests ih =>
    obtain ⟨hr, hrequests⟩ := not_or.mp (mt List.mem_cons.mpr h)
    obtain ⟨hready, hgrows⟩ := ih hrequests (ready_after hs r)
    exact ⟨hready, (after hs (Ne.symm hr)).trans hgrows⟩

/-- When a request for what is defined has been answered, then the same request, made at any time
before memory is reset, gets the same answer. Making it changes nothing but, for a text, the count
of hits. -/
theorem repeating_is_free (k : Catalog) (history later : List Request) {r : Request}
    {reply : Reply} {s : Session} (hr : r.Definite k) (hlater : .reset ∉ later)
    (h : r.perform k (k.sessionAfter history) = .ok reply s) :
    r.perform k (later.foldl (Request.after k) s) =
      .ok reply (r.hit (later.foldl (Request.after k) s)) := by
  obtain ⟨hs, hrepeats⟩ := (ensures_repeats hr (ready_sessionAfter k history)).of_ok h
  obtain ⟨hs', hgrows⟩ := Session.GrowsTo.afterEach hlater hs
  exact hrepeats _ hs' hgrows

/-- On a cycle of properties nothing is remembered before the cycle is closed. Between the two
requests one is answered and one fails. -/
theorem repeating_is_free_on_cycle :
    let r : Request := .text ⟨"x", "<'p'> | <a>"⟩
    let reply : Reply := .resolved ⟨[.literal "a", .anyString, .dataType "a"], false⟩
    r.Definite entangled ∧ ∃ s, r.perform entangled (entangled.sessionAfter []) = .ok reply s ∧
      let s' := [.property "q", .text ⟨"y", "["⟩].foldl (Request.after entangled) s
      r.perform entangled s' = .ok reply s'.hitText := by
  intro r reply
  have hr : r.Definite entangled := .text _
  obtain ⟨s, hs⟩ : Returns (resolveText entangled ⟨"x", "<'p'> | <a>"⟩)
      (entangled.sessionAfter []) ⟨[.literal "a", .anyString, .dataType "a"], false⟩ := by
    decide +kernel
  have h : r.perform entangled (entangled.sessionAfter []) = .ok reply s := map_eq_of_ok hs _
  exact ⟨hr, s, h, repeating_is_free entangled [] _ hr (by simp) h⟩

end ValueSyntax
