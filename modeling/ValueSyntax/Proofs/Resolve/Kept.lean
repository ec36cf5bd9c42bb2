import ValueSyntax.Proofs.Resolve.Confined
import ValueSyntax.Proofs.Resolve.Faults
import ValueSyntax.Proofs.Resolve.Memory

namespace ValueSyntax

/-- What every session satisfies while the entries of a path are being resolved. -/
structure Session.Midway (path : List Entry) (s : Session) : Prop where
  /-- The trees that are remembered are those of their texts. -/
  read : ∀ text t, s.trees.lookup text = some t → Tree.ofText text = .ok t
  /-- Nothing is known of an entry before it is finished. -/
  unfinished : ∀ e ∈ path, e ∉ s.entries.map Prod.fst

/-- A warning that resolving definitions of the catalog can record. -/
inductive Catalog.Warns (k : Catalog) : Warning → Prop
  | unknownProperty (name referrer : String) : Warns k (.unknownProperty name referrer)
  | cyclicProperty (name referrer : String) : Warns k (.cyclicProperty name referrer)
  | definition {entry : Entry} {text : String} {t : Tree} {w : Warning}
      (hdef : k.Defines entry text) (ht : Tree.ofText text = .ok t)
      (h : t.Warns k entry.name w) : Warns k w

/-- A property of sessions, while the entries of a path are being resolved, that every step of the
resolution keeps as long as it gives allowed warnings only. -/
structure Kept (k : Catalog) (inv : List Entry → Session → Prop)
    (allowed : Warning → Prop := fun _ => True) : Prop where
  midway {path s} : inv path s → s.Midway path
  warn (path s w) : allowed w → inv path s → inv path (s.warn w)
  catalog (w) : k.Warns w → allowed w
  hitTree {path s} : inv path s → inv path s.hitTree
  rememberTree {path s text t} : inv path s → s.trees.lookup text = none →
    Tree.ofText text = .ok t → inv path (s.rememberTree text t)
  hitText {path s} : inv path s → inv path s.hitText
  rememberText {path s} : inv path s → ∀ text types, inv path (s.rememberText text types)
  rememberEntry {s name builtin} : inv [] s → Builtin.ofName? name = some builtin →
    inv [] (s.rememberEntry (.dataType name) [builtin.shape])
  /-- Only a defined entry is recorded, outside its own resolution and once. -/
  record {path s entry text} : inv path s → k.Defines entry text → entry ∉ path →
    entry ∉ s.entries.map Prod.fst → ∀ types, inv path (s.record entry types)
  /-- Only a reference to what is being resolved is left open. -/
  openCycle {path s name} : inv path s → .property name ∈ path → inv path (s.openCycle name)
  enter {path s entry} : inv path s → entry ∉ path → entry ∉ s.entries.map Prod.fst →
    inv (entry :: path) (s.enter entry)
  close {path s entry} : inv (entry :: path) s → entry ∉ path → inv path (s.close entry)

section Steps

variable {path : List Entry} {s : Session}

namespace Session

@[simp] theorem trees_enter (entry : Entry) : (s.enter entry).trees = s.trees := by
  unfold enter
  split <;> rfl

@[simp] theorem texts_enter (entry : Entry) : (s.enter entry).texts = s.texts := by
  unfold enter
  split <;> rfl

@[simp] theorem warnings_enter (entry : Entry) : (s.enter entry).warnings = s.warnings := by
  unfold enter
  split <;> rfl

@[simp] theorem entries_enter (entry : Entry) : (s.enter entry).entries = s.entries := by
  unfold enter
  split <;> rfl

@[simp] theorem lengths_enter (entry : Entry) : (s.enter entry).lengths = s.lengths := by
  unfold enter
  split <;> rfl

@[simp] theorem trees_close (entry : Entry) : (s.close entry).trees = s.trees := by
  cases entry <;> rfl

@[simp] theorem texts_close (entry : Entry) : (s.close entry).texts = s.texts := by
  cases entry <;> rfl

@[simp] theorem warnings_close (entry : Entry) : (s.close entry).warnings = s.warnings := by
  cases entry <;> rfl

@[simp] theorem entries_close (entry : Entry) : (s.close entry).entries = s.entries := by
  cases entry <;> rfl

@[simp] theorem lengths_close (entry : Entry) : (s.close entry).lengths = s.lengths := by
  cases entry <;> rfl

@[simp] theorem trees_openCycle (name : String) : (s.openCycle name).trees = s.trees := by
  unfold openCycle
  split <;> rfl

@[simp] theorem texts_openCycle (name : String) : (s.openCycle name).texts = s.texts := by
  unfold openCycle
  split <;> rfl

@[simp] theorem warnings_openCycle (name : String) : (s.openCycle name).warnings = s.warnings := by
  unfold openCycle
  split <;> rfl

@[simp] theorem entries_openCycle (name : String) : (s.openCycle name).entries = s.entries := by
  unfold openCycle
  split <;> rfl

@[simp] theorem lengths_openCycle (name : String) : (s.openCycle name).lengths = s.lengths := by
  unfold openCycle
  split <;> rfl

namespace Midway

theorem of_eq {s' : Session} (h : s.Midway path) (ht : s'.trees = s.trees)
    (he : s'.entries = s.entries) : s'.Midway path :=
  ⟨ht ▸ h.read, he ▸ h.unfinished⟩

theorem record (h : s.Midway path) {entry : Entry} (hpath : entry ∉ path) (types : List Shape) :
    (s.record entry types).Midway path := by
  refine ⟨h.read, fun e he hmem => ?_⟩
  rcases List.mem_cons.mp hmem with rfl | hmem
  · exact hpath he
  · exact h.unfinished e he hmem

theorem enter (h : s.Midway path) {entry : Entry} (hnew : entry ∉ s.entries.map Prod.fst) :
    (s.enter entry).Midway (entry :: path) := by
  refine ⟨by simpa using h.read, ?_⟩
  rw [entries_enter]
  exact List.forall_mem_cons.mpr ⟨hnew, h.unfinished⟩

theorem close {entry : Entry} (h : s.Midway (entry :: path)) : (s.close entry).Midway path := by
  refine ⟨by simpa using h.read, ?_⟩
  rw [entries_close]
  exact fun e he => h.unfinished e (List.mem_cons_of_mem _ he)

end Midway

end Session

theorem Kept.aside (k : Catalog) {P : Memo String Bool → List Warning → Prop}
    {allowed : Warning → Prop} (hcatalog : ∀ w, k.Warns w → allowed w)
    (hwarn : ∀ lengths warnings w, allowed w → P lengths warnings → P lengths (w :: warnings)) :
    Kept k (fun path s => s.Midway path ∧ P s.lengths s.warnings) allowed where
  midway h := h.1
  warn _ _ _ hw h := ⟨h.1.of_eq rfl rfl, hwarn _ _ _ hw h.2⟩
  catalog := hcatalog
  hitTree h := ⟨h.1.of_eq rfl rfl, h.2⟩
  rememberTree h _ ht := ⟨⟨Session.lookup_rememberTree h.1.read ht, h.1.unfinished⟩, h.2⟩
  hitText h := ⟨h.1.of_eq rfl rfl, h.2⟩
  rememberText h _ _ := ⟨h.1.of_eq rfl rfl, h.2⟩
  rememberEntry h _ := ⟨⟨h.1.read, nofun⟩, h.2⟩
  record h _ hpath _ types := ⟨h.1.record hpath types, h.2⟩
  openCycle h _ := ⟨h.1.of_eq (by simp) (by simp), by simpa using h.2⟩
  enter h _ hnew := ⟨h.1.enter hnew, by simpa using h.2⟩
  close h _ := ⟨h.1.close, by simpa using h.2⟩

theorem Kept.lengths (k : Catalog) (l : Memo String Bool) :
    Kept k fun path s => s.Midway path ∧ s.lengths = l :=
  .aside k (P := fun lengths _ => lengths = l) (fun _ _ => trivial) fun _ _ _ _ h => h

end Steps

namespace Confines

variable {k : Catalog} {inv : Session → Prop} {fault : Failure → Prop}

theorem dataTypeShapes {name : String}
    (hwarn : ¬ k.isKnownDataType name → ∀ s, inv s → inv (s.warn (.unknownDataType name name)))
    (hbuiltin : ∀ s builtin, inv s → Builtin.ofName? name = some builtin →
      inv (s.rememberEntry (.dataType name) [builtin.shape]))
    (hentry : ∀ text, k.Defines (.dataType name) text → Confines inv fault
      (resolveEntry k (expandProperty k [.dataType name]) (.dataType name) text)) :
    Confines inv fault (dataTypeShapes k name) := by
  refine .get_bind fun s => ?_
  split
  · exact .pure _
  · split
    · next hb => exact .bind (.modify fun s hs => hbuiltin s _ hs hb) fun _ => .pure _
    · next hb =>
      split
      · next text hget => exact hentry text ⟨hb, hget⟩
      · next hget =>
        have hk : ¬ k.isKnownDataType name := by
          simp [Catalog.isKnownDataType, Table.contains, hb, hget]
        exact .bind (.modify (hwarn hk)) fun _ => .pure _

theorem textShapes {source : Source} (hhit : ∀ s, inv s → inv s.hitText)
    (hremember : ∀ s types, inv s → inv (s.rememberText source.text types))
    (hsource : Confines inv fault (resolveSource k (expandProperty k []) source)) :
    Confines inv fault (textShapes k source) := by
  refine .get_bind fun s => ?_
  split
  · exact .bind (.modify hhit) fun _ => .pure _
  · refine .bind hsource fun types => .get_bind fun s => ?_
    split
    · exact .bind (.modify fun s => hremember s types) fun _ => .pure _
    · exact .pure _

end Confines

namespace Kept

variable {k : Catalog} {inv : List Entry → Session → Prop} {allowed : Warning → Prop}
  {path : List Entry} {expand : String → String → Resolving Shapes}

theorem readTree_ends (h : Kept k inv allowed) {s : Session} (hs : inv path s) (source : Source) :
    Ends (readTree source) s (fun t s' => inv path s' ∧ Tree.ofText source.text = .ok t)
      fun e s' => inv path s' ∧ source.tree = .error e := by
  rw [ValueSyntax.readTree, Ends.bind_iff, Ends.get_iff]
  split
  · next t hl => exact ⟨h.hitTree hs, (h.midway hs).read _ _ hl⟩
  · next hl =>
    split
    · next e he => exact ⟨hs, he⟩
    · next t ht =>
      have ht := Source.tree_eq_ok_iff.mp ht
      exact ⟨h.rememberTree hs hl ht, ht⟩

theorem readTree (h : Kept k inv allowed) (source : Source) :
    Confines (inv path) (fun e => source.tree = .error e) (readTree source) :=
  fun _ hs => (h.readTree_ends hs source).mono (fun _ _ h => h.1) fun _ _ h => h

theorem resolveSource (h : Kept k inv allowed)
    (hexp : ∀ name referrer, Confines (inv path) (k.FaultsOf name) (expand name referrer))
    (source : Source) (hwarns : ∀ t w, Tree.ofText source.text = .ok t →
      t.Warns k source.name w → allowed w) :
    Confines (inv path) (k.Faults source) (resolveSource k expand source) := by
  intro s hs
  rw [ValueSyntax.resolveSource, Ends.bind_iff]
  refine (h.readTree_ends hs source).mono ?_ fun e s' hf => ⟨hf.1, .own hf.2⟩
  rintro t s₁ ⟨hs₁, ht⟩
  have hconfined : t.Confined k (inv path) (k.Faults source) expand source.name := by
    have hsupplied : t.Supplied k := (Tree.Proper.of_text ht).supplied
    refine ⟨fun c hc => absurd hc hsupplied.not_lacks,
      fun w hw s => h.warn path s w (hwarns t w ht hw), fun name hn => (hexp name _).imp ?_⟩
    rintro e ⟨hi, text, hget, he⟩
    exact .expanded ht (hn hi) hget he
  exact (Confines.shapes hconfined).bind (fun _ => .pure _) s₁ hs₁

theorem resolveEntry (h : Kept k inv allowed) {entry : Entry} {text : String}
    (hdef : k.Defines entry text) (hpath : entry ∉ path)
    (hexp : ∀ name referrer,
      Confines (inv (entry :: path)) (k.FaultsOf name) (expand name referrer)) :
    Confines (inv path) (k.Faults ⟨entry.name, text⟩) (resolveEntry k expand entry text) := by
  intro s hs
  rw [ValueSyntax.resolveEntry, Ends.bind_iff, Ends.get_iff]
  split
  · exact hs
  · next hl =>
    have hnew := Session.not_mem_of_lookup hl
    rw [Ends.bind_iff, Ends.get_iff]
    split
    · next types _ =>
      simp only [Ends.bind_iff, Ends.modify_iff, Ends.pure_iff]
      exact h.record (h.hitText hs) hdef hpath hnew types
    · rw [Ends.bind_iff, Ends.modify_iff, Ends.bind_iff, Ends.closing_iff]
      have hwarns : ∀ t w, Tree.ofText text = .ok t → t.Warns k entry.name w → allowed w :=
        fun t w ht hw => h.catalog w (.definition hdef ht hw)
      refine (h.resolveSource hexp _ hwarns _ (h.enter hs hpath hnew)).mono ?_
        fun e s₁ hf => ⟨h.close hf.1 hpath, hf.2⟩
      intro types s₁ hs₁
      have hclosed := h.close hs₁ hpath
      have hnew₁ : entry ∉ (s₁.close entry).entries.map Prod.fst := by
        rw [Session.entries_close]
        exact (h.midway hs₁).unfinished entry (List.mem_cons_self ..)
      rw [Ends.bind_iff, Ends.get_iff]
      split
      · simp only [Ends.bind_iff, Ends.modify_iff, Ends.pure_iff]
        exact h.record (h.rememberText hclosed _ _) hdef hpath hnew₁ types
      · exact hclosed

theorem expandProperty (h : Kept k inv allowed) (path : List Entry) (name referrer : String) :
    Confines (inv path) (k.FaultsOf name) (expandProperty k path name referrer) := by
  rw [ValueSyntax.expandProperty]
  split
  · exact .pure _
  · next hinline =>
    split
    · exact .widened fun s => h.warn path s _ (h.catalog _ (.unknownProperty ..))
    · next text hget =>
      split
      · next hp =>
        exact .bind (.modify fun s => h.warn path s _ (h.catalog _ (.cyclicProperty ..))) fun _ =>
          .bind (.modify fun _ hs => h.openCycle hs hp) fun _ => .pure _
      · next hp =>
        have hlt := Catalog.unexpanded_cons_lt hget hp
        have hdef : k.Defines (.property name) text := hget
        have hi : k.inlines name := by simp_all [Catalog.inlines, Table.contains]
        have hentry := h.resolveEntry hdef hp (expandProperty h (.property name :: path))
        exact .map (hentry.imp fun e he => ⟨hi, text, hget, he⟩)
termination_by k.unexpanded path

theorem entry (h : Kept k inv allowed) {entry : Entry} {text : String} (hdef : k.Defines entry text) :
    Confines (inv []) (k.Faults ⟨entry.name, text⟩)
      (ValueSyntax.resolveEntry k (ValueSyntax.expandProperty k [entry]) entry text) :=
  h.resolveEntry hdef List.not_mem_nil (h.expandProperty [entry])

theorem dataTypeShapes (h : Kept k inv allowed) (name : String)
    (hwarns : ¬ k.isKnownDataType name → allowed (.unknownDataType name name) := by
      exact fun _ => trivial) :
    Confines (inv []) (fun e => ∃ text, k.Defines (.dataType name) text ∧ k.Faults ⟨name, text⟩ e)
      (dataTypeShapes k name) :=
  .dataTypeShapes (fun hk s => h.warn [] s _ (hwarns hk)) (fun _ _ hs => h.rememberEntry hs)
    fun text hdef => (h.entry hdef).imp fun _ he => ⟨text, hdef, he⟩

theorem textShapes (h : Kept k inv allowed) (source : Source)
    (hwarns : ∀ t w, Tree.ofText source.text = .ok t → t.Warns k source.name w → allowed w := by
      exact fun _ _ _ _ => trivial) :
    Confines (inv []) (k.Faults source) (textShapes k source) :=
  .textShapes (fun _ => h.hitText) (fun _ types hs => h.rememberText hs _ types)
    (h.resolveSource (h.expandProperty []) source hwarns)

theorem treeShapes (h : Kept k inv allowed) (t : Tree) (referrer : String)
    (hwarns : ∀ w, t.Warns k referrer w → allowed w := by exact fun _ _ => trivial) :
    Confines (inv path)
      (fun e => (∃ c, t.Lacks k c ∧ e = withoutOperands c referrer) ∨
        ∃ name, t.Expands k name ∧ k.FaultsOf name e)
      (t.shapes k (ValueSyntax.expandProperty k path) referrer) :=
  .shapes
    ⟨fun c hc => Or.inl ⟨c, hc, rfl⟩, fun w hw s => h.warn path s w (hwarns w hw),
      fun name hn => (h.expandProperty path name referrer).imp
        fun _ he => Or.inr ⟨name, hn he.1, he⟩⟩

end Kept

theorem not_readable_of_error {k : Catalog} {s s' : Session} {name : String} {e : Failure}
    (hs : s.Midway []) (h : dataTypeShapes k name s = .error e s') (types : List Shape) :
    dataTypeAfresh k name ≠ .ok types := by
  intro hafresh
  obtain ⟨-, text, ⟨hb, hget⟩, hfaults⟩ :=
    (((Kept.lengths k s.lengths).dataTypeShapes name) s ⟨hs, rfl⟩).of_error h
  rw [dataTypeAfresh, hb, hget] at hafresh
  exact not_faults_of_sourceAfresh hafresh hfaults

theorem definitionAfresh_ne_ok_of_error {k : Catalog} {s s' : Session} {name text : String}
    {e : Failure} (hs : s.Midway []) (hget : k.properties.get? name = some text)
    (h : resolveEntry k (expandProperty k [.property name]) (.property name) text s = .error e s')
    (types : List Shape) : definitionAfresh k name text ≠ .ok types := by
  intro hafresh
  have hdef : k.Defines (.property name) text := hget
  obtain ⟨-, hfaults⟩ := ((Kept.lengths k s.lengths).entry hdef s ⟨hs, rfl⟩).of_error h
  exact not_faults_of_definitionAfresh hget hafresh hfaults

end ValueSyntax
