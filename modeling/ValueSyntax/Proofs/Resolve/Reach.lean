import ValueSyntax.Proofs.Resolve.Kept
import ValueSyntax.Proofs.Resolve.Top

namespace ValueSyntax

open Relation

/-- The shape is listed for the data type. -/
def Catalog.Lists (k : Catalog) (name : String) (x : Shape) : Prop :=
  ∃ types, dataTypeAfresh k name = .ok types ∧ x ∈ types

def Catalog.Mentions (k : Catalog) (a b : String) : Prop := k.Lists a (.dataType b)

/-- A data type that the name leads to lists the length. -/
def Catalog.ReachesLength (k : Catalog) (name : String) : Prop :=
  ∃ m, ReflTransGen k.Mentions name m ∧ k.Lists m .length

/-- The shapes of the data type can be told. -/
def Catalog.Readable (k : Catalog) (name : String) : Prop :=
  ∃ types, dataTypeAfresh k name = .ok types

/-- All that the name leads to can be told, and nowhere is the length listed. -/
def Catalog.Barren (k : Catalog) (name : String) : Prop :=
  ∀ m, ReflTransGen k.Mentions name m → k.Readable m ∧ ¬ k.Lists m .length

/-- Shapes that need the length parameter, themselves or through a data type. -/
def Catalog.NeedsLength (k : Catalog) (types : List Shape) : Prop :=
  .length ∈ types ∨ ∃ name, .dataType name ∈ types ∧ k.ReachesLength name

/-- Shapes without the length parameter, whose data types lead only to what can be told. -/
def Catalog.AllBarren (k : Catalog) (types : List Shape) : Prop :=
  .length ∉ types ∧ ∀ name, .dataType name ∈ types → k.Barren name

/-- Nothing is being expanded, and all that is remembered is right. -/
structure Session.Ready (k : Catalog) (s : Session) : Prop where
  below : s.Below k ∅
  lengths : ∀ e ∈ s.lengths, e.2 = true ↔ k.ReachesLength e.1
  /-- A search has been everywhere before it says no. -/
  barren : ∀ e ∈ s.lengths, e.2 = false → k.Barren e.1

theorem Catalog.Barren.not_reachesLength {k : Catalog} {name : String} (h : k.Barren name) :
    ¬ k.ReachesLength name :=
  fun ⟨m, hm, hlength⟩ => (h m hm).2 hlength

theorem Catalog.eq_true_iff_needsLength {k : Catalog} {types : List Shape} {needed : Bool}
    (h : needed = true → k.NeedsLength types) (h' : needed = false → k.AllBarren types) :
    needed = true ↔ k.NeedsLength types := by
  refine ⟨h, fun hneeds => ?_⟩
  cases needed with
  | true => rfl
  | false =>
    obtain ⟨hno, hbarren⟩ := h' rfl
    rcases hneeds with hlength | ⟨name, hname, hreach⟩
    · exact absurd hlength hno
    · exact absurd hreach (hbarren name hname).not_reachesLength

theorem Session.mem_of_lookup {s : Session} {name : String} {needed : Bool}
    (h : s.lengths.lookup name = some needed) : (name, needed) ∈ s.lengths := by
  obtain ⟨before, after, hmem, _⟩ := List.lookup_eq_some_iff.mp h
  simp [hmem]

theorem Session.Ready.of_lookup {k : Catalog} {s : Session} (hs : s.Ready k) {name : String}
    {needed : Bool} (h : s.lengths.lookup name = some needed) :
    needed = true ↔ k.ReachesLength name :=
  hs.lengths (name, needed) (s.mem_of_lookup h)

theorem Session.Ready.barren_of_lookup {k : Catalog} {s : Session} (hs : s.Ready k)
    {name : String} (h : s.lengths.lookup name = some false) : k.Barren name :=
  hs.barren (name, false) (s.mem_of_lookup h) rfl

theorem Session.Ready.rememberLength {k : Catalog} {s : Session} (hs : s.Ready k) {name : String}
    {needed : Bool} (h : needed = true ↔ k.ReachesLength name)
    (hb : needed = false → k.Barren name) : (s.rememberLength needed name).Ready k :=
  ⟨hs.below.rememberLength,
    List.forall_mem_cons.mpr ⟨h, hs.lengths⟩, List.forall_mem_cons.mpr ⟨hb, hs.barren⟩⟩

theorem Session.Ready.rememberEach {k : Catalog} {s : Session} (hs : s.Ready k)
    {names : List String} (h : ∀ name ∈ names, k.Barren name) :
    (names.foldl (Session.rememberLength false) s).Ready k := by
  induction names generalizing s with
  | nil => exact hs
  | cons name names ih =>
    have hname := h name (List.mem_cons_self ..)
    apply ih
    · exact hs.rememberLength (by simpa using hname.not_reachesLength) fun _ => hname
    · exact fun n hn => h n (List.mem_cons_of_mem _ hn)

theorem Session.Below.midway {k : Catalog} {path : Set String} {s : Session} (hs : s.Below k path) :
    s.Midway [] :=
  ⟨hs.sound.trees, nofun⟩

theorem Session.Ready.midway {k : Catalog} {s : Session} (hs : s.Ready k) : s.Midway [] :=
  hs.below.midway

theorem Ensures.ready {α : Type} {k : Catalog} {s : Session} {x : Resolving α} {done : α → Prop}
    {fault : Failure → Prop} (hs : s.Ready k)
    (h : Ensures x s (fun a s' => s'.Below k ∅ ∧ done a) (Session.Below k ∅))
    (hx : Confines (fun s' => s'.Midway [] ∧ s'.lengths = s.lengths) fault x) :
    Ensures x s (fun a s' => s'.Ready k ∧ done a) (Session.Ready k) := by
  refine (h.and (hx.ensures ⟨hs.midway, rfl⟩)).mono ?_ ?_
  · rintro a s' ⟨⟨hbelow, ha⟩, -, hlengths⟩
    exact ⟨⟨hbelow, hlengths ▸ hs.lengths, hlengths ▸ hs.barren⟩, ha⟩
  · rintro s' ⟨hbelow, -, hlengths⟩
    exact ⟨hbelow, hlengths ▸ hs.lengths, hlengths ▸ hs.barren⟩

theorem ensures_dataTypeShapes_of_ready {k : Catalog} {s : Session} (name : String)
    (hs : s.Ready k) :
    Ensures (dataTypeShapes k name) s
      (fun types s' => s'.Ready k ∧ dataTypeAfresh k name = .ok types) (Session.Ready k) :=
  .ready hs (ensures_dataTypeShapes name hs.below) ((Kept.lengths k s.lengths).dataTypeShapes name)

theorem ensures_entry_of_ready {k : Catalog} {s : Session} {entry : Entry} {text : String}
    (hdef : k.Defines entry text) (hs : s.Ready k) :
    Ensures (resolveEntry k (expandProperty k [entry]) entry text) s
      (fun types s' => s'.Ready k ∧ ∃ t, Tree.ofText text = .ok t ∧ Settled k t types)
      (Session.Ready k) :=
  .ready hs (ensures_entry hdef hs.below) ((Kept.lengths k s.lengths).entry hdef)

theorem ensures_textShapes_of_ready {k : Catalog} {s : Session} (source : Source)
    (hs : s.Ready k) :
    Ensures (textShapes k source) s
      (fun types s' => s'.Ready k ∧ sourceAfresh k (propertyAfresh k []) source = .ok types)
      (Session.Ready k) :=
  .ready hs (ensures_textShapes source hs.below) ((Kept.lengths k s.lengths).textShapes source)

theorem ensures_tree_of_ready {k : Catalog} {s : Session} (t : Tree) (referrer : String)
    (hs : s.Ready k) :
    Ensures (t.shapes k (expandProperty k []) referrer) s
      (fun shapes s' => s'.Ready k ∧ t.Supplied k ∧ Settled k t (k.settings.finish shapes))
      (Session.Ready k) :=
  .ready hs (ensures_tree t referrer hs.below) ((Kept.lengths k s.lengths).treeShapes t referrer)

section Reach

variable {k : Catalog}

@[simp] theorem mem_dataTypeNames {types : List Shape} {name : String} :
    name ∈ dataTypeNames types ↔ .dataType name ∈ types := by
  unfold dataTypeNames
  rw [List.mem_filterMap]
  constructor
  · rintro ⟨x, hx, hname⟩
    cases x <;> simp_all [Shape.dataTypeName?]
  · exact fun h => ⟨_, h, rfl⟩

theorem Catalog.Lists.iff_mem {name : String} {types : List Shape} {x : Shape}
    (h : dataTypeAfresh k name = .ok types) : k.Lists name x ↔ x ∈ types := by
  constructor
  · rintro ⟨types', h', hx⟩
    cases h.symm.trans h'
    exact hx
  · exact fun hx => ⟨types, h, hx⟩

theorem Catalog.Mentions.contains {a b : String} (h : k.Mentions a b) :
    k.dataTypes.contains a := by
  obtain ⟨types, ht, hmem⟩ := h
  unfold dataTypeAfresh at ht
  split at ht
  · next builtin _ =>
    cases ht
    cases builtin <;> simp [Builtin.shape] at hmem
  · split at ht
    · next hget => simp [Table.contains, hget]
    · cases ht
      simp at hmem

theorem Catalog.ReachesLength.of_lists {name : String} (h : k.Lists name .length) :
    k.ReachesLength name :=
  ⟨name, .refl, h⟩

theorem Catalog.ReachesLength.head {a b : String} (h : ReflTransGen k.Mentions a b)
    (hb : k.ReachesLength b) : k.ReachesLength a := by
  obtain ⟨m, hm, hlength⟩ := hb
  exact ⟨m, h.trans hm, hlength⟩

/-- No length has been found at the visited data types, and those they mention are known to be
without it, visited, or still on the stack. -/
def Searched (k : Catalog) (visited stack : List String) : Prop :=
  ∀ v ∈ visited, k.Barren v ∨
    (k.Readable v ∧ ¬ k.Lists v .length ∧ ∀ m, k.Mentions v m → m ∈ visited ∨ m ∈ stack)

theorem Searched.barren {visited : List String} (h : Searched k visited []) {v : String}
    (hv : v ∈ visited) : k.Barren v := by
  intro m hm
  -- The way leads to visited data types, or from one of them to where all is known.
  have hvisited : m ∈ visited ∨ k.Barren m := by
    induction hm with
    | refl => exact Or.inl hv
    | @tail a c _ hac ih =>
      rcases ih with ha | ha
      · rcases h a ha with hbarren | ⟨_, _, hnext⟩
        · exact Or.inr fun m hm => hbarren m (.head hac hm)
        · exact Or.inl ((hnext c hac).resolve_right List.not_mem_nil)
      · exact Or.inr fun m hm => ha m (.head hac hm)
  rcases hvisited with hm | hbarren
  · rcases h m hm with hbarren | ⟨hreadable, hno, _⟩
    · exact hbarren m .refl
    · exact ⟨hreadable, hno⟩
  · exact hbarren m .refl

theorem Searched.skip {visited stack : List String} {name : String}
    (h : Searched k visited (name :: stack)) (hn : name ∈ visited) : Searched k visited stack := by
  intro v hv
  rcases h v hv with hbarren | ⟨hreadable, hno, hnext⟩
  · exact Or.inl hbarren
  · refine Or.inr ⟨hreadable, hno, fun m hm => ?_⟩
    rcases hnext m hm with hvis | hstack
    · exact Or.inl hvis
    · rcases List.mem_cons.mp hstack with rfl | hstack
      · exact Or.inl hn
      · exact Or.inr hstack

theorem Searched.visit {visited stack more : List String} {name : String}
    (h : Searched k visited (name :: stack))
    (hn : k.Barren name ∨
      (k.Readable name ∧ ¬ k.Lists name .length ∧ ∀ m, k.Mentions name m → m ∈ more)) :
    Searched k (name :: visited) (more ++ stack) := by
  intro v hv
  rcases List.mem_cons.mp hv with rfl | hv
  · refine hn.imp_right fun ⟨hreadable, hno, hmore⟩ => ⟨hreadable, hno, fun m hm => ?_⟩
    exact Or.inr (List.mem_append_left _ (hmore m hm))
  · refine (h v hv).imp_right fun ⟨hreadable, hno, hnext⟩ => ⟨hreadable, hno, fun m hm => ?_⟩
    rcases hnext m hm with hvis | hstack
    · exact Or.inl (List.mem_cons_of_mem _ hvis)
    · rcases List.mem_cons.mp hstack with rfl | hstack
      · exact Or.inl (List.mem_cons_self ..)
      · exact Or.inr (List.mem_append_right _ hstack)

/-- An answer to a search that starts at a data type. -/
structure Found (k : Catalog) (start : String) (visited stack : List String)
    (answer : Bool × List String) : Prop where
  /-- Each data type is visited once. -/
  nodup : visited.Nodup → answer.2.Nodup
  reaches : answer.1 = true → k.ReachesLength start
  searched : answer.1 = false → Searched k answer.2 []
  visited : answer.1 = false → ∀ v ∈ visited, v ∈ answer.2
  stack : answer.1 = false → ∀ v ∈ stack, v ∈ answer.2

/-- The state of a search. -/
structure Searching (k : Catalog) (start : String) (visited stack : List String) : Prop where
  searched : Searched k visited stack
  reached : ∀ v ∈ stack, ReflTransGen k.Mentions start v

variable {start name : String} {visited stack more : List String}

theorem Found.skip {answer : Bool × List String} (h : Found k start visited stack answer)
    (hn : name ∈ visited) : Found k start visited (name :: stack) answer where
  reaches := h.reaches
  searched := h.searched
  visited := h.visited
  stack hno v hv := by
    rcases List.mem_cons.mp hv with rfl | hv
    · exact h.visited hno v hn
    · exact h.stack hno v hv
  nodup := h.nodup

theorem Found.visit (hn : name ∉ visited) {answer : Bool × List String}
    (h : Found k start (name :: visited) (more ++ stack) answer) :
    Found k start visited (name :: stack) answer where
  reaches := h.reaches
  searched := h.searched
  visited hno v hv := h.visited hno v (List.mem_cons_of_mem _ hv)
  stack hno v hv := by
    rcases List.mem_cons.mp hv with rfl | hv
    · exact h.visited hno v (List.mem_cons_self ..)
    · exact h.stack hno v (List.mem_append_right _ hv)
  nodup hv := h.nodup (List.nodup_cons.mpr ⟨hn, hv⟩)

theorem Found.of_reached (h : Searching k start visited (name :: stack)) (hn : name ∉ visited)
    (hreach : k.ReachesLength name) :
    Found k start visited (name :: stack) (true, name :: visited) where
  reaches _ := .head (h.reached name (List.mem_cons_self ..)) hreach
  nodup hv := List.nodup_cons.mpr ⟨hn, hv⟩
  searched := nofun
  visited := nofun
  stack := nofun

theorem Searching.initial (name : String) : Searching k name [] [name] :=
  ⟨nofun, fun _ hv => List.mem_singleton.mp hv ▸ .refl⟩

theorem Searching.visit (h : Searching k start visited (name :: stack))
    (hn : k.Barren name ∨
      (k.Readable name ∧ ¬ k.Lists name .length ∧ ∀ m, k.Mentions name m → m ∈ more))
    (hmore : ∀ m ∈ more, k.Mentions name m) :
    Searching k start (name :: visited) (more ++ stack) where
  searched := h.searched.visit hn
  reached v hv := by
    rcases List.mem_append.mp hv with hv | hv
    · exact (h.reached name (List.mem_cons_self ..)).tail (hmore v hv)
    · exact h.reached v (List.mem_cons_of_mem _ hv)

theorem Searching.skip (h : Searching k start visited (name :: stack)) (hn : name ∈ visited) :
    Searching k start visited stack :=
  ⟨h.searched.skip hn, fun v hv => h.reached v (List.mem_cons_of_mem _ hv)⟩

theorem Searching.pass (h : Searching k start visited (name :: stack))
    (hn : k.Barren name ∨
      (k.Readable name ∧ ¬ k.Lists name .length ∧ ∀ m, ¬ k.Mentions name m)) :
    Searching k start (name :: visited) stack := by
  refine @Searching.visit _ _ _ _ _ [] h (hn.imp_right ?_) nofun
  rintro ⟨hreadable, hno, hm⟩
  exact ⟨hreadable, hno, fun m h => absurd h (hm m)⟩

theorem Found.pass (hn : name ∉ visited) {answer : Bool × List String}
    (h : Found k start (name :: visited) stack answer) :
    Found k start visited (name :: stack) answer :=
  @Found.visit _ _ _ _ _ [] hn _ h

theorem Searching.mentioned {types : List Shape}
    (h : Searching k start visited (name :: stack)) (ht : dataTypeAfresh k name = .ok types)
    (hno : .length ∉ types) :
    Searching k start (name :: visited) ((dataTypeNames types).reverse ++ stack) := by
  have hmore : ∀ m, m ∈ (dataTypeNames types).reverse ↔ k.Mentions name m := by
    intro m
    rw [List.mem_reverse, mem_dataTypeNames]
    exact (Catalog.Lists.iff_mem ht).symm
  refine h.visit (Or.inr ⟨⟨types, ht⟩, ?_, fun m => (hmore m).mpr⟩) fun m => (hmore m).mp
  rwa [Catalog.Lists.iff_mem ht]

theorem ensures_throughStack {seen : List String}
    {follow : ∀ visited, unseen k.dataTypes.keys visited < unseen k.dataTypes.keys seen →
      List String → Resolving (Bool × List String)}
    (hfollow : ∀ visited hlt stack s, Session.Ready k s → Searching k start visited stack →
      Ensures (follow visited hlt stack) s
        (fun answer s' => s'.Ready k ∧ Found k start visited stack answer) (Session.Ready k))
    {hle : unseen k.dataTypes.keys visited ≤ unseen k.dataTypes.keys seen} {s : Session}
    (hs : s.Ready k) (h : Searching k start visited stack) :
    Ensures (throughStack k seen follow visited hle stack) s
      (fun answer s' => s'.Ready k ∧ Found k start visited stack answer) (Session.Ready k) := by
  -- `follow` goes on with a data type more visited, so the induction is on the stack alone.
  induction stack generalizing visited s with
  | nil =>
    rw [throughStack, Ensures.pure_iff]
    exact ⟨hs, id, nofun, fun _ => h.searched, fun _ v hv => hv, fun _ v hv => nomatch hv⟩
  | cons name stack ih =>
    rw [throughStack]
    split
    · next hn => exact (ih hs (h.skip hn)).imp fun _ _ ⟨hs', hf⟩ => ⟨hs', hf.skip hn⟩
    · next hn =>
      rw [Ensures.bind_iff, Ensures.get_iff]
      split
      · next hl =>
        rw [Ensures.pure_iff]
        exact ⟨hs, .of_reached h hn ((hs.of_lookup hl).mp rfl)⟩
      · next hl =>
        have hpass := h.pass (Or.inl (hs.barren_of_lookup hl))
        exact (ih hs hpass).imp fun _ _ ⟨hs', hf⟩ => ⟨hs', hf.pass hn⟩
      · rw [Ensures.bind_iff]
        apply (ensures_dataTypeShapes_of_ready name hs).imp
        rintro types s₁ ⟨hs₁, ht⟩
        split
        · next hmem =>
          rw [Ensures.pure_iff]
          exact ⟨hs₁, .of_reached h hn (.of_lists ((Catalog.Lists.iff_mem ht).mpr hmem))⟩
        · next hmem =>
          split
          · exact (hfollow _ _ _ _ hs₁ (h.mentioned ht hmem)).imp
              fun _ _ ⟨hs', hf⟩ => ⟨hs', hf.visit hn⟩
          · next hd =>
            have hno : ¬ k.Lists name .length := by rwa [Catalog.Lists.iff_mem ht]
            have hpass := h.pass (Or.inr ⟨⟨types, ht⟩, hno, fun m hm => hd hm.contains⟩)
            exact (ih hs₁ hpass).imp fun _ _ ⟨hs', hf⟩ => ⟨hs', hf.pass hn⟩

theorem ensures_searchLength {visited stack : List String} {s : Session} (hs : s.Ready k)
    (h : Searching k start visited stack) :
    Ensures (searchLength k visited stack) s
      (fun answer s' => s'.Ready k ∧ Found k start visited stack answer) (Session.Ready k) := by
  rw [searchLength]
  exact ensures_throughStack (fun _ hlt _ _ hs' h' => ensures_searchLength hs' h') hs h
termination_by unseen k.dataTypes.keys visited

/-- A search that says no has told all that the data type leads to. -/
theorem ensures_barren {s : Session} (hs : s.Ready k) :
    Ensures (dataTypeNeedsLength k name) s
      (fun needed s' => s'.Ready k ∧ (needed = true → k.ReachesLength name) ∧
        (needed = false → k.Barren name)) (Session.Ready k) := by
  rw [dataTypeNeedsLength, Ensures.bind_iff, Ensures.get_iff]
  split
  · next needed hl =>
    refine ⟨hs, (hs.of_lookup hl).mp, ?_⟩
    rintro rfl
    exact hs.barren_of_lookup hl
  · rw [Ensures.bind_iff]
    apply (ensures_searchLength hs (.initial name)).imp
    rintro ⟨found, visited⟩ s₁ ⟨hs₁, hfound⟩
    cases found with
    | true =>
      -- Only the start is known to reach the length; what was visited on the way need not.
      have hreach := hfound.reaches rfl
      simp only [if_true, Ensures.bind_iff, Ensures.modify_iff, Ensures.pure_iff]
      have hs₂ : (s₁.rememberLength true name).Ready k :=
        hs₁.rememberLength (by simpa using hreach) (by rintro ⟨⟩)
      exact ⟨hs₂, fun _ => hreach, by rintro ⟨⟩⟩
    | false =>
      have hbarren : ∀ v ∈ visited, k.Barren v := fun v => (hfound.searched rfl).barren
      simp only [Bool.false_eq_true, if_false, Ensures.bind_iff, Ensures.modify_iff,
        Ensures.pure_iff]
      have hname := hbarren name (hfound.stack rfl name (by simp))
      exact ⟨hs₁.rememberEach hbarren, by rintro ⟨⟩, fun _ => hname⟩

theorem ensures_dataTypeNeedsLength {s : Session} (hs : s.Ready k) :
    Ensures (dataTypeNeedsLength k name) s
      (fun needed s' => s'.Ready k ∧ (needed = true ↔ k.ReachesLength name)) (Session.Ready k) := by
  apply (ensures_barren hs).imp
  rintro needed s' ⟨hs', hreach, hbarren⟩
  refine ⟨hs', hreach, fun h => ?_⟩
  cases needed with
  | true => rfl
  | false => exact absurd h (hbarren rfl).not_reachesLength

theorem ensures_eachBarren {s : Session} (names : List String) (hs : s.Ready k) :
    Ensures (anyNeedsLength k names) s
      (fun needed s' => s'.Ready k ∧ (needed = true → ∃ name ∈ names, k.ReachesLength name) ∧
        (needed = false → ∀ name ∈ names, k.Barren name)) (Session.Ready k) := by
  induction names generalizing s with
  | nil =>
    rw [anyNeedsLength, Ensures.pure_iff]
    exact ⟨hs, nofun, fun _ _ hname => nomatch hname⟩
  | cons name names ih =>
    rw [anyNeedsLength, Ensures.bind_iff]
    apply (ensures_barren hs).imp
    rintro needed s₁ ⟨hs₁, hreach, hbarren⟩
    split
    · next h =>
      rw [Ensures.pure_iff]
      exact ⟨hs₁, fun _ => ⟨name, List.mem_cons_self .., hreach h⟩, nofun⟩
    · next h =>
      apply (ih hs₁).imp
      rintro found s₂ ⟨hs₂, hsome, hnone⟩
      refine ⟨hs₂, fun hfound => ?_, fun hfound => ?_⟩
      · obtain ⟨m, hm, hreach⟩ := hsome hfound
        exact ⟨m, List.mem_cons_of_mem _ hm, hreach⟩
      · exact List.forall_mem_cons.mpr ⟨hbarren (Bool.eq_false_iff.mpr h), hnone hfound⟩

theorem ensures_allBarren {s : Session} (types : List Shape) (hs : s.Ready k) :
    Ensures (needsLength k types) s
      (fun needed s' => s'.Ready k ∧ (needed = true → k.NeedsLength types) ∧
        (needed = false → k.AllBarren types)) (Session.Ready k) := by
  rw [needsLength]
  split
  · next h =>
    rw [Ensures.pure_iff]
    exact ⟨hs, fun _ => Or.inl h, nofun⟩
  · next h =>
    apply (ensures_eachBarren (dataTypeNames types) hs).imp
    rintro needed s' ⟨hs', hsome, hnone⟩
    simp only [mem_dataTypeNames] at hsome hnone
    exact ⟨hs', fun hneeded => Or.inr (hsome hneeded), fun hneeded => ⟨h, hnone hneeded⟩⟩

theorem ensures_needsLength {s : Session} (types : List Shape) (hs : s.Ready k) :
    Ensures (needsLength k types) s
      (fun needed s' => s'.Ready k ∧ (needed = true ↔ k.NeedsLength types)) (Session.Ready k) :=
  (ensures_allBarren types hs).imp fun _ _ ⟨hs', hneeds, hbarren⟩ =>
    ⟨hs', Catalog.eq_true_iff_needsLength hneeds hbarren⟩

end Reach

end ValueSyntax
