import ValueSyntax.Proofs.Resolve.Bookkeeping
import ValueSyntax.Proofs.Resolve.Expanding

namespace ValueSyntax

open Relation

namespace Tree

mutual

/-- The properties that the tree expands, in the order in which resolution comes to them. -/
def expanded (k : Catalog) : Tree → List String
  | reference name _ true => if k.inlines name then [name] else []
  | joined c operands => if c.enumerates k operands.length then expandedEach k operands else []
  | group inner true => expanded k inner
  | multiplied inner m => if m.max = some 1 then expanded k inner else []
  | _ => []

def expandedEach (k : Catalog) : List Tree → List String
  | [] => []
  | t :: ts => expanded k t ++ expandedEach k ts

end

variable {k : Catalog}

theorem mem_expandedEach {ts : List Tree} {name : String} :
    name ∈ expandedEach k ts ↔ ∃ t ∈ ts, name ∈ t.expanded k := by
  induction ts with
  | nil => simp [expandedEach]
  | cons t ts ih => simp [expandedEach, ih]

theorem mem_expanded_of_expands {t : Tree} {name : String} (h : t.Expands k name) :
    name ∈ t.expanded k := by
  induction h with
  | reference h => simp [expanded, h]
  | joined hp ht _ ih =>
    rw [expanded, if_pos hp]
    exact mem_expandedEach.mpr ⟨_, ht, ih⟩
  | group _ ih => rwa [expanded]
  | multiplied hm _ ih => rwa [expanded, if_pos hm]

mutual

theorem expands_of_mem_expanded :
    ∀ {t : Tree} {name : String}, name ∈ t.expanded k → t.Expands k name
  | keyword _, _, h | symbol _ _, _, h | number _ _, _, h | reference _ _ false, _, h
  | function _ _, _, h | group _ false, _, h => by simp [expanded] at h
  | reference name range true, m, h => by
    rw [expanded] at h
    split at h
    · next hi =>
      rw [List.mem_singleton.mp h]
      exact .reference hi
    · cases h
  | joined c operands, m, h => by
    rw [expanded] at h
    split at h
    · next hc =>
      obtain ⟨t, ht, hm⟩ := expandsEach_of_mem_expanded h
      exact .joined hc ht hm
    · cases h
  | group inner true, m, h => by
    rw [expanded] at h
    exact .group (expands_of_mem_expanded h)
  | multiplied inner mult, m, h => by
    rw [expanded] at h
    split at h
    · next hmax => exact .multiplied hmax (expands_of_mem_expanded h)
    · cases h

theorem expandsEach_of_mem_expanded :
    ∀ {ts : List Tree} {name : String}, name ∈ expandedEach k ts → ∃ t ∈ ts, t.Expands k name
  | t :: ts, name, h => by
    rw [expandedEach] at h
    rcases List.mem_append.mp h with h | h
    · exact ⟨t, List.mem_cons_self .., expands_of_mem_expanded h⟩
    · obtain ⟨t', ht', hn⟩ := expandsEach_of_mem_expanded h
      exact ⟨t', List.mem_cons_of_mem _ ht', hn⟩

end

end Tree

/-- What expanding properties one after the other does to a session. -/
structure Session.Follows (k : Catalog) (s : Session) (names : List String) (s' : Session) :
    Prop where
  resolved : s.resolved ⊆ s'.resolved
  stays : s.openCycles ⊆ s'.openCycles
  opened : ∀ m ∈ s'.openCycles, m ∈ s.openCycles ∨ ∃ n ∈ names, ReflTransGen k.Expands n m
  /-- What is not recorded was kept from it by a cycle that was open already, or that one of the
  properties up to this one has opened. -/
  recorded : ∀ before name after, names = before ++ name :: after →
    .property name ∈ s'.resolved ∨ ∃ m ∈ s'.openCycles,
      m ∈ s.openCycles ∨ ∃ n ∈ before ++ [name], ReflTransGen k.Expands n m

namespace Session.Follows

variable {k : Catalog} {s s₁ s' : Session}

theorem of_eq (hresolved : s'.resolved = s.resolved) (hopen : s'.openCycles = s.openCycles) :
    Follows k s [] s' where
  resolved := hresolved ▸ List.Subset.refl _
  stays := hopen ▸ List.Subset.refl _
  opened m hm := Or.inl (hopen ▸ hm)
  recorded before name after h := by simp at h

theorem append {names names' : List String} (h : Follows k s names s₁)
    (h' : Follows k s₁ names' s') : Follows k s (names ++ names') s' where
  resolved _ he := h'.resolved (h.resolved he)
  stays _ hm := h'.stays (h.stays hm)
  opened m hm := by
    rcases h'.opened m hm with hm | ⟨n, hn, hnm⟩
    · refine (h.opened m hm).imp_right ?_
      rintro ⟨n, hn, hnm⟩
      exact ⟨n, List.mem_append_left _ hn, hnm⟩
    · exact Or.inr ⟨n, List.mem_append_right _ hn, hnm⟩
  recorded before name after hnames := by
    have first : ∀ after', names = before ++ name :: after' →
        .property name ∈ s'.resolved ∨ ∃ m ∈ s'.openCycles,
          m ∈ s.openCycles ∨ ∃ n ∈ before ++ [name], ReflTransGen k.Expands n m := by
      intro after' heq
      rcases h.recorded before name after' heq with hr | ⟨m, hm, hopened⟩
      · exact Or.inl (h'.resolved hr)
      · exact Or.inr ⟨m, h'.stays hm, hopened⟩
    have second : ∀ middle, before = names ++ middle → names' = middle ++ name :: after →
        .property name ∈ s'.resolved ∨ ∃ m ∈ s'.openCycles,
          m ∈ s.openCycles ∨ ∃ n ∈ before ++ [name], ReflTransGen k.Expands n m := by
      rintro middle rfl heq
      refine (h'.recorded middle name after heq).imp_right ?_
      rintro ⟨m, hm, hopened | ⟨n, hn, hnm⟩⟩
      · -- What is open already when the second list starts, the first one has opened or found.
        refine ⟨m, hm, (h.opened m hopened).imp_right ?_⟩
        rintro ⟨n, hn, hnm⟩
        exact ⟨n, by simp [hn], hnm⟩
      · exact ⟨m, hm, Or.inr ⟨n, by simp_all, hnm⟩⟩
    rcases List.append_eq_append_iff.mp hnames with ⟨middle, hleft, hright⟩ | ⟨middle, hleft, hright⟩
    · exact second middle hleft hright
    · cases middle with
      | nil => exact second [] (by simpa using hleft.symm) (by simpa using hright.symm)
      | cons n middle =>
        cases hright
        exact first middle hleft

theorem singleton {name : String} (hresolved : s.resolved ⊆ s'.resolved)
    (hstays : s.openCycles ⊆ s'.openCycles)
    (hopened : ∀ m ∈ s'.openCycles, m ∈ s.openCycles ∨ ReflTransGen k.Expands name m)
    (hrecorded : s'.openCycles = [] → .property name ∈ s'.resolved) : Follows k s [name] s' where
  resolved := hresolved
  stays := hstays
  opened m hm := (hopened m hm).imp_right fun h => ⟨name, List.mem_singleton_self name, h⟩
  recorded before n after h := by
    obtain ⟨rfl, rfl, rfl⟩ : before = [] ∧ name = n ∧ after = [] := by cases before <;> simp_all
    cases hcycles : s'.openCycles with
    | nil => exact Or.inl (hrecorded hcycles)
    | cons m ms =>
      have hm : m ∈ s'.openCycles := by simp [hcycles]
      exact Or.inr ⟨m, by simp, (hopened m hm).imp_right fun h => ⟨name, by simp, h⟩⟩

end Session.Follows

namespace Tree

variable {k : Catalog} {inv : Session → Prop} {expand : String → String → Resolving Shapes}
  {referrer : String}

/-- Expanding a property keeps `inv` and does to the session what it says. -/
def FollowsOne (k : Catalog) (inv : Session → Prop) (expand : String → String → Resolving Shapes) :
    Prop :=
  ∀ name referrer s, inv s → Ensures (expand name referrer) s
    (fun _ s' => inv s' ∧ s.Follows k (if k.inlines name then [name] else []) s') inv

mutual

/-- Resolving a tree expands its properties one after the other. -/
theorem ensures_follows (hwarn : ∀ s w, inv s → inv (s.warn w)) (hexpand : FollowsOne k inv expand) :
    ∀ (t : Tree) (s : Session), inv s → Ensures (t.shapes k expand referrer) s
      (fun _ s' => inv s' ∧ s.Follows k (t.expanded k) s') inv
  | keyword _, s, hs | symbol _ _, s, hs | number _ _, s, hs | function _ _, s, hs
  | group _ false, s, hs => by
    rw [shapes, Ensures.pure_iff]
    exact ⟨hs, .of_eq rfl rfl⟩
  | reference name _ true, s, hs => by
    rw [shapes, expanded]
    exact hexpand name referrer s hs
  | reference name _ false, s, hs => by
    rw [shapes]
    split
    · exact ⟨hs, .of_eq rfl rfl⟩
    · exact ensures_widened.mpr ⟨hwarn s _ hs, .of_eq rfl rfl⟩
  | joined .juxtaposition [], s, hs => by
    rw [shapes, Ensures.pure_iff]
    exact ⟨hs, .of_eq rfl rfl⟩
  | joined .juxtaposition [t], s, hs => by
    rw [shapes]
    simpa [expanded, expandedEach, Connective.enumerates] using ensures_follows hwarn hexpand t s hs
  | joined .juxtaposition (t :: u :: ts), s, hs => by
    rw [shapes]
    · simpa [expanded, Connective.enumerates] using ⟨hs, .of_eq rfl rfl⟩
    · exact nofun
    · exact nofun
  | joined .oneOf operands, s, hs =>
    ensuresJoined_follows hwarn hexpand (by decide) operands s hs
  | joined .anyOrder operands, s, hs =>
    ensuresJoined_follows hwarn hexpand (by decide) operands s hs
  | joined .allRequired operands, s, hs =>
    ensuresJoined_follows hwarn hexpand (by decide) operands s hs
  | group inner true, s, hs => by
    rw [shapes, expanded]
    exact ensures_follows hwarn hexpand inner s hs
  | multiplied inner m, s, hs => by
    rw [shapes, expanded]
    split
    · next hm =>
      rw [if_neg (by simp [hm])]
      exact ⟨hs, .of_eq rfl rfl⟩
    · split
      · exact ensures_follows hwarn hexpand inner s hs
      · exact ⟨hs, .of_eq rfl rfl⟩

theorem ensuresJoined_follows (hwarn : ∀ s w, inv s → inv (s.warn w))
    (hexpand : FollowsOne k inv expand) {c : Connective} (hc : c ≠ .juxtaposition)
    (operands : List Tree) (s : Session) (hs : inv s) :
    Ensures ((joined c operands).shapes k expand referrer) s
      (fun _ s' => inv s' ∧ s.Follows k ((joined c operands).expanded k) s') inv := by
  rw [shapes_joined hc, expanded]
  split
  · exact hs
  · split
    · rw [Ensures.map_iff]
      exact ensuresEach_follows hwarn hexpand operands s hs
    · exact ensures_widened.mpr ⟨hwarn s _ hs, .of_eq rfl rfl⟩

theorem ensuresEach_follows (hwarn : ∀ s w, inv s → inv (s.warn w))
    (hexpand : FollowsOne k inv expand) : ∀ (ts : List Tree) (s : Session), inv s →
    Ensures (shapesEach k expand referrer ts) s
      (fun _ s' => inv s' ∧ s.Follows k (expandedEach k ts) s') inv
  | [], s, hs => ⟨hs, .of_eq rfl rfl⟩
  | t :: ts, s, hs => by
    rw [shapesEach, expandedEach, Ensures.bind_iff]
    apply (ensures_follows hwarn hexpand t s hs).imp
    rintro _ s₁ ⟨hs₁, h₁⟩
    rw [Ensures.bind_iff]
    apply (ensuresEach_follows hwarn hexpand ts s₁ hs₁).imp
    rintro _ s₂ ⟨hs₂, h₂⟩
    exact ⟨hs₂, h₁.append h₂⟩

end

end Tree

namespace Catalog

/-- A chain of expansions leads from the property to one that the text defines. -/
def LeadsTo (k : Catalog) (text name : String) : Prop :=
  ∃ p, k.properties.get? p = some text ∧ ReflTransGen k.Expands name p

/-- Definitions with this text expand the property, and neither the property nor one that they
expand before it leads back to such a definition. -/
def Precedes (k : Catalog) (name text : String) : Prop :=
  ∃ t before after, Tree.ofText text = .ok t ∧ t.expanded k = before ++ name :: after ∧
    ∀ m ∈ before ++ [name], ¬ k.LeadsTo text m

end Catalog

namespace Session

/-- Entries stand behind the properties that their definitions expand, as far as these do not lead
back, and what is remembered of a text can be recorded at any time. -/
structure InOrder (k : Catalog) (s : Session) : Prop where
  texts : ∀ text types, s.texts.lookup text = some types →
    ∀ name, k.Precedes name text → .property name ∈ s.resolved
  resolved : ∀ later entry earlier, s.resolved = later ++ entry :: earlier →
    ∀ text name, k.Defines entry text → k.Precedes name text → .property name ∈ earlier

namespace InOrder

variable {k : Catalog} {s : Session}

theorem start : InOrder k {} := ⟨nofun, by simp⟩

theorem of_eq {s' : Session} (h : s.InOrder k) (htexts : s'.texts = s.texts)
    (hresolved : s'.resolved = s.resolved) : s'.InOrder k :=
  ⟨by rw [htexts, hresolved]; exact h.texts, by rw [hresolved]; exact h.resolved⟩

theorem rememberText {text : String} (h : s.InOrder k)
    (hprecedes : ∀ name, k.Precedes name text → .property name ∈ s.resolved)
    (types : List Shape) : (s.rememberText text types).InOrder k := by
  refine ⟨fun text' types' hl => ?_, h.resolved⟩
  rw [Session.rememberText, Table.lookup_cons] at hl
  split at hl
  · next he => exact he ▸ hprecedes
  · exact h.texts text' types' hl

theorem record {entry : Entry} {text : String} (h : s.InOrder k) (hdef : k.Defines entry text)
    (hprecedes : ∀ name, k.Precedes name text → .property name ∈ s.resolved)
    (types : List Shape) : (s.record entry types).InOrder k := by
  constructor
  · intro text' types' hl name hname
    exact List.mem_cons_of_mem _ (h.texts text' types' hl name hname)
  · intro later entry' earlier hsplit text' name hdef' hname
    cases later with
    | nil =>
      cases hsplit
      rw [hdef'.unique hdef] at hname
      exact hprecedes name hname
    | cons e later =>
      exact h.resolved later entry' earlier (List.cons.inj hsplit).2 text' name hdef' hname

end InOrder

variable {s : Session}

@[simp] theorem resolved_enter (entry : Entry) : (s.enter entry).resolved = s.resolved := by
  unfold enter
  split <;> rfl

@[simp] theorem openCycles_enter (entry : Entry) : (s.enter entry).openCycles = s.openCycles := by
  unfold enter
  split <;> rfl

@[simp] theorem resolved_close (entry : Entry) : (s.close entry).resolved = s.resolved := by
  cases entry <;> rfl

theorem mem_openCycles_close {entry : Entry} {m : String} :
    m ∈ (s.close entry).openCycles ↔ m ∈ s.openCycles ∧ entry ≠ .property m := by
  cases entry with
  | property name =>
    rw [show (s.close (.property name)).openCycles = s.openCycles.filter (· ≠ name) from rfl]
    grind
  | dataType name =>
    rw [show (s.close (.dataType name)).openCycles = s.openCycles from rfl]
    simp

@[simp] theorem resolved_openCycle (name : String) : (s.openCycle name).resolved = s.resolved := by
  unfold openCycle
  split <;> rfl

theorem mem_openCycles_openCycle {name m : String} :
    m ∈ (s.openCycle name).openCycles ↔ m = name ∨ m ∈ s.openCycles := by
  unfold openCycle
  split
  · grind
  · simp

end Session

/-- The books are in order, and so are the entries. -/
structure Session.Arranged (k : Catalog) (path : List Entry) (s : Session) : Prop where
  booked : s.Booked k path
  inOrder : s.InOrder k

namespace Session.Arranged

variable {k : Catalog} {path : List Entry} {s : Session}

theorem warn (h : s.Arranged k path) (w : Warning) : (s.warn w).Arranged k path :=
  ⟨h.booked.warn w, h.inOrder.of_eq rfl rfl⟩

theorem enter (h : s.Arranged k path) {entry : Entry} (hpath : entry ∉ path)
    (hnew : entry ∉ s.entries.map Prod.fst) : (s.enter entry).Arranged k (entry :: path) :=
  ⟨h.booked.enter hpath hnew, h.inOrder.of_eq (by simp) (by simp)⟩

theorem close {entry : Entry} (h : s.Arranged k (entry :: path)) (hpath : entry ∉ path) :
    (s.close entry).Arranged k path :=
  ⟨h.booked.close hpath, h.inOrder.of_eq (by simp) (by simp)⟩

theorem openCycle (h : s.Arranged k path) {name : String} (hp : .property name ∈ path) :
    (s.openCycle name).Arranged k path :=
  ⟨h.booked.openCycle hp, h.inOrder.of_eq (by simp) (by simp)⟩

end Session.Arranged

section Steps

variable {k : Catalog} {path : List Entry} {expand : String → String → Resolving Shapes}
  {s : Session}

theorem ensures_readTree_arranged (hs : s.Arranged k path) (source : Source) :
    Ensures (readTree source) s
      (fun t s' => s'.Arranged k path ∧ s.Follows k [] s' ∧ Tree.ofText source.text = .ok t)
      (Session.Arranged k path) := by
  have hkept := Session.Booked.upheld k
  rw [readTree, Ensures.bind_iff, Ensures.get_iff]
  split
  · next t hl =>
    have ht := hs.booked.midway.read _ _ hl
    exact ⟨⟨hkept.hitTree hs.booked, hs.inOrder.of_eq rfl rfl⟩, .of_eq rfl rfl, ht⟩
  · next hl =>
    split
    · exact hs
    · next t ht =>
      have ht := Source.tree_eq_ok_iff.mp ht
      exact ⟨⟨hs.booked.rememberTree hl ht, hs.inOrder.of_eq rfl rfl⟩, .of_eq rfl rfl, ht⟩

theorem ensures_resolveSource_follows (hexpand : Tree.FollowsOne k (Session.Arranged k path) expand)
    (hs : s.Arranged k path) (source : Source) :
    Ensures (resolveSource k expand source) s
      (fun _ s' => s'.Arranged k path ∧
        ∃ t, Tree.ofText source.text = .ok t ∧ s.Follows k (t.expanded k) s')
      (Session.Arranged k path) := by
  rw [resolveSource, Ensures.bind_iff]
  apply (ensures_readTree_arranged hs source).imp
  rintro t s₁ ⟨hs₁, hread, ht⟩
  rw [Ensures.bind_iff]
  apply (Tree.ensures_follows (fun s w h => h.warn w) hexpand t s₁ hs₁).imp
  rintro shapes s₂ ⟨hs₂, hfollows⟩
  exact ⟨hs₂, t, ht, hread.append hfollows⟩

/-- With nothing open but the entry itself, what precedes its text has been recorded. -/
theorem Session.Follows.precedes {text : String} {t : Tree} {s' : Session}
    (h : s.Follows k (t.expanded k) s') (ht : Tree.ofText text = .ok t)
    (hopen : ∀ m ∈ s'.openCycles, m ∉ s.openCycles ∧ k.properties.get? m = some text) :
    ∀ name, k.Precedes name text → .property name ∈ s'.resolved := by
  rintro name ⟨t', before, after, ht', hsplit, hfree⟩
  cases ht.symm.trans ht'
  refine (h.recorded before name after hsplit).resolve_right ?_
  rintro ⟨m, hm, hbefore | ⟨n, hn, hnm⟩⟩
  · exact (hopen m hm).1 hbefore
  · exact hfree n hn ⟨m, (hopen m hm).2, hnm⟩

theorem Session.Follows.of_openCycle {name : String} (w : Warning) :
    s.Follows k [name] ((s.warn w).openCycle name) := by
  have hopen : ∀ m, m ∈ ((s.warn w).openCycle name).openCycles ↔ m = name ∨ m ∈ s.openCycles :=
    fun m => Session.mem_openCycles_openCycle
  refine .singleton (by simp [Session.warn]) (fun m hm => (hopen m).mpr (Or.inr hm)) ?_ ?_
  · intro m hm
    rcases (hopen m).mp hm with rfl | hm
    · exact Or.inr .refl
    · exact Or.inl hm
  · intro hempty
    have hname := (hopen name).mpr (Or.inl rfl)
    rw [hempty] at hname
    cases hname

theorem Session.Booked.mem_resolved {entry : Entry} {text : String} {types : List Shape}
    (h : s.Booked k path) (hdef : k.Defines entry text) (hl : s.entries.lookup entry = some types) :
    entry ∈ s.resolved := by
  obtain ⟨before, after, hmem, -⟩ := List.lookup_eq_some_iff.mp hl
  have hentry : entry ∈ s.entries.map Prod.fst := by simp [hmem]
  refine (h.entries entry hentry).resolve_right ?_
  rintro ⟨name, builtin, rfl, hb⟩
  cases hdef.1.symm.trans hb

/-- What resolving an entry does to a session. -/
structure Session.Completes (k : Catalog) (s : Session) (entry : Entry) (text : String)
    (s' : Session) : Prop where
  resolved : s.resolved ⊆ s'.resolved
  stays : s.openCycles ⊆ s'.openCycles
  opened : ∀ m ∈ s'.openCycles, m ∈ s.openCycles ∨ ∃ t n, Tree.ofText text = .ok t ∧
    t.Expands k n ∧ ReflTransGen k.Expands n m
  recorded : s'.openCycles = [] → entry ∈ s'.resolved

/-- The references of an entry have been followed, and the entry has been closed after that. -/
theorem Session.Follows.completes {entry : Entry} {text : String} {t : Tree} {s₁ s' : Session}
    (hs : s.Booked k path) (hpath : entry ∉ path) (ht : Tree.ofText text = .ok t)
    (h : (s.enter entry).Follows k (t.expanded k) s₁) (hresolved : s₁.resolved ⊆ s'.resolved)
    (hopen : s'.openCycles = (s₁.close entry).openCycles)
    (hrecorded : s'.openCycles = [] → entry ∈ s'.resolved) : s.Completes k entry text s' where
  resolved e he := hresolved (h.resolved (by simpa using he))
  stays m hm := by
    rw [hopen, Session.mem_openCycles_close]
    refine ⟨h.stays (by simpa using hm), ?_⟩
    rintro rfl
    exact hpath (hs.openCycles m hm)
  opened m hm := by
    rw [hopen, Session.mem_openCycles_close] at hm
    rcases h.opened m hm.1 with hm | ⟨n, hn, hnm⟩
    · exact Or.inl (by simpa using hm)
    · exact Or.inr ⟨t, n, ht, Tree.expands_of_mem_expanded hn, hnm⟩
  recorded := hrecorded

theorem Session.Completes.of_known {entry : Entry} {text : String} {s' : Session}
    (hresolved : s.resolved ⊆ s'.resolved) (hopen : s'.openCycles = s.openCycles)
    (hentry : entry ∈ s'.resolved) : s.Completes k entry text s' where
  resolved := hresolved
  stays := hopen ▸ List.Subset.refl _
  opened _ hm := Or.inl (hopen ▸ hm)
  recorded _ := hentry

/-- With nothing open behind an entry, only the entry itself can have been open in the meantime. -/
theorem Session.Booked.opened_within {entry : Entry} {text : String} {s₁ : Session}
    (hs : s.Booked k path) (hdef : k.Defines entry text) (hpath : entry ∉ path)
    (hempty : (s₁.close entry).openCycles = []) {m : String} (hm : m ∈ s₁.openCycles) :
    m ∉ (s.enter entry).openCycles ∧ k.properties.get? m = some text := by
  have hentry : entry = .property m := by
    by_contra hne
    have hmem := Session.mem_openCycles_close.mpr ⟨hm, hne⟩
    rw [hempty] at hmem
    cases hmem
  subst hentry
  refine ⟨fun hm => hpath (hs.openCycles m ?_), hdef⟩
  rwa [Session.openCycles_enter] at hm

theorem Session.Arranged.finish {entry : Entry} {text : String}
    (hs : s.Arranged k (entry :: path)) (hdef : k.Defines entry text) (hpath : entry ∉ path)
    (hprecedes : ∀ name, k.Precedes name text → .property name ∈ s.resolved)
    (types : List Shape) :
    (((s.close entry).rememberText text types).record entry types).Arranged k path := by
  have hclosed := hs.close hpath
  have hnew : entry ∉ (s.close entry).entries.map Prod.fst := by
    rw [Session.entries_close]
    exact hs.booked.midway.unfinished entry (List.mem_cons_self ..)
  rw [← Session.resolved_close entry] at hprecedes
  constructor
  · exact ((Session.Booked.upheld k).rememberText hclosed.booked text types).record hdef hpath hnew
      types
  · exact (hclosed.inOrder.rememberText hprecedes types).record hdef hprecedes types

theorem ensures_resolveEntry_completes {entry : Entry} {text : String}
    (hdef : k.Defines entry text) (hpath : entry ∉ path)
    (hexpand : Tree.FollowsOne k (Session.Arranged k (entry :: path)) expand)
    (hs : s.Arranged k path) :
    Ensures (resolveEntry k expand entry text) s
      (fun _ s' => s'.Arranged k path ∧ s.Completes k entry text s') (Session.Arranged k path) := by
  rw [resolveEntry, Ensures.bind_iff, Ensures.get_iff]
  split
  · next types hl =>
    exact ⟨hs, .of_known (List.Subset.refl _) rfl (hs.booked.mem_resolved hdef hl)⟩
  · next hl =>
    have hnew := Session.not_mem_of_lookup hl
    rw [Ensures.bind_iff, Ensures.get_iff]
    split
    · next types ht =>
      simp only [Ensures.bind_iff, Ensures.modify_iff, Ensures.pure_iff]
      -- A text is remembered only once all that precedes it has been recorded.
      have hhit := (Session.Booked.upheld k).hitText hs.booked
      have hinOrder : s.hitText.InOrder k := hs.inOrder.of_eq rfl rfl
      have hprecedes := hs.inOrder.texts text types ht
      exact ⟨⟨hhit.record hdef hpath hnew types, hinOrder.record hdef hprecedes types⟩,
        .of_known (fun _ he => List.mem_cons_of_mem _ he) rfl (List.mem_cons_self ..)⟩
    · rw [Ensures.bind_iff, Ensures.modify_iff, Ensures.bind_iff, Ensures.closing_iff]
      have hentered := hs.enter hpath hnew
      refine (ensures_resolveSource_follows hexpand hentered ⟨entry.name, text⟩).mono ?_
        fun s₁ hs₁ => hs₁.close hpath
      rintro types s₁ ⟨hs₁, t, ht, hfollows⟩
      rw [Ensures.bind_iff, Ensures.get_iff]
      split
      · next hempty =>
        -- Nothing is open any more, so nothing kept what precedes the text from being recorded.
        have hprecedes := hfollows.precedes ht fun m hm =>
          hs.booked.opened_within hdef hpath (List.isEmpty_iff.mp hempty) hm
        simp only [Ensures.bind_iff, Ensures.modify_iff, Ensures.pure_iff]
        refine ⟨hs₁.finish hdef hpath hprecedes types, ?_⟩
        refine hfollows.completes hs.booked hpath ht (fun e he => ?_) rfl fun _ => ?_
        · exact List.mem_cons_of_mem _ (by simpa [Session.rememberText] using he)
        · exact List.mem_cons_self ..
      · next hne =>
        refine ⟨hs₁.close hpath, ?_⟩
        refine hfollows.completes hs.booked hpath ht (by simp) rfl fun hempty => ?_
        exact absurd (List.isEmpty_iff.mpr hempty) hne

theorem follows_expandProperty (k : Catalog) (path : List Entry) :
    Tree.FollowsOne k (Session.Arranged k path) (expandProperty k path) := by
  intro name referrer s hs
  rw [expandProperty]
  split
  · next hinline =>
    have hi : k.inlines name = false := by simp_all [Catalog.inlines]
    rw [Ensures.pure_iff, if_neg (by simp [hi])]
    exact ⟨hs, .of_eq rfl rfl⟩
  · next hinline =>
    split
    · next hget =>
      have hi : k.inlines name = false := by simp_all [Catalog.inlines, Table.contains]
      rw [ensures_widened, if_neg (by simp [hi])]
      exact ⟨hs.warn _, .of_eq rfl rfl⟩
    · next text hget =>
      have hi : k.inlines name := by simp_all [Catalog.inlines, Table.contains]
      rw [if_pos hi]
      split
      · next hp =>
        simp only [warn, Ensures.bind_iff, Ensures.modify_iff, Ensures.pure_iff]
        exact ⟨(hs.warn _).openCycle hp, .of_openCycle _⟩
      · next hp =>
        have hlt := Catalog.unexpanded_cons_lt hget hp
        have hdef : k.Defines (.property name) text := hget
        rw [Ensures.map_iff]
        apply (ensures_resolveEntry_completes hdef hp
          (follows_expandProperty k (.property name :: path)) hs).imp
        rintro types s' ⟨hs', h⟩
        refine ⟨hs', .singleton h.resolved h.stays (fun m hm => ?_) h.recorded⟩
        refine (h.opened m hm).imp_right ?_
        rintro ⟨t, n, ht, hn, hnm⟩
        exact .head ⟨t, Catalog.tree?_eq_some hget ht, hn⟩ hnm
termination_by k.unexpanded path

end Steps

section Requests

variable {k : Catalog}

theorem arranged_entry {entry : Entry} {text : String} (hdef : k.Defines entry text) :
    Confines (Session.Arranged k []) (fun _ => True)
      (resolveEntry k (expandProperty k [entry]) entry text) := by
  refine .of_ensures fun s hs => ?_
  exact (ensures_resolveEntry_completes hdef List.not_mem_nil
    (follows_expandProperty k [entry]) hs).imp fun _ _ h => h.1

theorem arranged_dataType (name : String) :
    Confines (Session.Arranged k []) (fun _ => True) (dataTypeShapes k name) :=
  .dataTypeShapes (fun _ _ hs => hs.warn _)
    (fun _ _ hs hb => ⟨hs.booked.rememberEntry hb, hs.inOrder.of_eq rfl rfl⟩)
    fun _ hdef => arranged_entry hdef

theorem arranged_text (source : Source) :
    Confines (Session.Arranged k []) (fun _ => True) (textShapes k source) := by
  have hkept := Session.Booked.upheld k
  refine .of_ensures fun s hs => ?_
  rw [textShapes, Ensures.bind_iff, Ensures.get_iff]
  split
  · exact ⟨hkept.hitText hs.booked, hs.inOrder.of_eq rfl rfl⟩
  · rw [Ensures.bind_iff]
    apply (ensures_resolveSource_follows (follows_expandProperty k []) hs source).imp
    rintro types s₁ ⟨hs₁, t, ht, hfollows⟩
    -- Outside of all entries nothing can be open.
    have hprecedes := hfollows.precedes ht fun m hm =>
      absurd (hs₁.booked.openCycles m hm) List.not_mem_nil
    rw [Ensures.bind_iff, Ensures.get_iff]
    split
    · exact ⟨hkept.rememberText hs₁.booked _ _, hs₁.inOrder.rememberText hprecedes types⟩
    · exact hs₁

theorem arranged_tree (t : Tree) (referrer : String) :
    Confines (Session.Arranged k []) (fun _ => True) (t.shapes k (expandProperty k []) referrer) :=
  .of_ensures fun s hs => (Tree.ensures_follows (fun _ w h => h.warn w)
    (follows_expandProperty k []) t s hs).imp fun _ _ h => h.1

theorem arranged_perform (r : Request) :
    Confines (Session.Arranged k []) (fun _ => True) (r.perform k) := by
  have hkept := Session.Booked.upheld k
  refine .perform (fun name _ => (arranged_dataType name).unnamed) ?_
    (fun name text hget => ?_) (fun _ _ => trivial) (fun _ _ => trivial)
    (fun _ => ⟨.start, .start⟩) (fun source _ => (arranged_text source).unnamed)
    (fun t referrer _ => (Confines.map (arranged_tree t referrer)).unnamed) fun source _ => ?_
  · exact fun s needed name hs =>
      ⟨hkept.rememberLength s needed name hs.booked, hs.inOrder.of_eq rfl rfl⟩
  · have hdef : k.Defines (.property name) text := hget
    exact (arranged_entry hdef).unnamed
  · exact .of_ensures fun s hs => (ensures_readTree_arranged hs source).imp fun _ _ h => h.1

theorem arranged_sessionAfter (k : Catalog) (history : List Request) :
    (k.sessionAfter history).Arranged k [] := by
  refine k.sessionAfter_induction ⟨.start, .start⟩ (fun s r hs => ?_) history
  rw [Request.after_eq]
  exact (arranged_perform r).leaves hs

end Requests

/-- After any history, a property that has been resolved stands behind each property that its
definition refers to and expands, unless that one, or one that the definition expands before it,
leads back to the property or to another one with the same definition. -/
theorem references_stand_before (k : Catalog) (history : List Request) {p text : String} {t : Tree}
    (hp : .property p ∈ (k.sessionAfter history).resolvedEntries)
    (hget : k.properties.get? p = some text) (ht : Tree.ofText text = .ok t) :
    (∀ q, t.Contributes k q → q ∈ t.expanded k) ∧
    ∀ before q after, t.expanded k = before ++ q :: after →
      (∀ m ∈ before ++ [q], ∀ e, k.properties.get? e = some text →
        ¬ ReflTransGen k.Expands m e) →
      ∃ earlier later, (k.sessionAfter history).resolvedEntries =
        earlier ++ .property p :: later ∧ .property q ∈ earlier := by
  refine ⟨fun q hq => Tree.mem_expanded_of_expands hq.expands, ?_⟩
  intro before q after hsplit hfree
  have hinOrder := (arranged_sessionAfter k history).inOrder
  obtain ⟨later, earlier, hresolved⟩ := List.append_of_mem (List.mem_reverse.mp hp)
  have hdef : k.Defines (.property p) text := hget
  have hprecedes : k.Precedes q text := by
    refine ⟨t, before, after, ht, hsplit, fun m hm => ?_⟩
    rintro ⟨e, he, hme⟩
    exact hfree m hm e he hme
  have hq := hinOrder.resolved later _ earlier hresolved text q hdef hprecedes
  refine ⟨earlier.reverse, later.reverse, ?_, List.mem_reverse.mpr hq⟩
  rw [Session.resolvedEntries, hresolved]
  simp

/-- A property that refers to another one and to a cycle, in either order. -/
def sidetracked (p : String) : Catalog where
  dataTypes := .ofList []
  properties := .ofList [("p", p), ("a", "<'p'>"), ("q", "x")]

theorem sidetracked_tree? (p : String) : (sidetracked p).tree? "q" = some (.keyword "x") := by
  have hget : (sidetracked p).properties.get? "q" = some "x" := rfl
  exact Catalog.tree?_eq_some hget (by decide +kernel)

theorem sidetracked_leads_nowhere {p m : String} (h : ReflTransGen (sidetracked p).Expands "q" m) :
    m = "q" := by
  rcases ReflTransGen.cases_head h with rfl | ⟨c, ⟨t, ht, hc⟩, -⟩
  · rfl
  · cases (sidetracked_tree? p).symm.trans ht
    cases hc

/-- The cycle comes last, so nothing is open before it. -/
theorem references_stand_before_cycle :
    let k := sidetracked "<'q'> | <'a'>"
    ∃ earlier later, (k.sessionAfter [.property "p"]).resolvedEntries =
      earlier ++ .property "p" :: later ∧ .property "q" ∈ earlier := by
  intro k
  have hread : Tree.ofText "<'q'> | <'a'>" =
      .ok (.joined .oneOf [.reference "q" none true, .reference "a" none true]) := by decide +kernel
  have hp : .property "p" ∈ (k.sessionAfter [.property "p"]).resolvedEntries := by decide +kernel
  obtain ⟨-, hbefore⟩ := references_stand_before k [.property "p"] hp rfl hread
  refine hbefore [] "q" ["a"] rfl fun m hm e he hchain => ?_
  rw [List.mem_singleton.mp hm] at hchain
  rw [sidetracked_leads_nowhere hchain] at he
  exact absurd he (by decide +kernel)

/-- The cycle comes first and is open when the other property is expanded, which is then not
recorded, although it refers to nothing. -/
theorem open_cycle_hides_reference :
    let k := sidetracked "<'a'> | <'q'>"
    let t := Tree.joined .oneOf [.reference "a" none true, .reference "q" none true]
    (k.sessionAfter [.property "p"]).resolvedEntries = [.property "p"] ∧
      k.tree? "p" = some t ∧ t.Contributes k "q" ∧
      k.tree? "q" = some (.keyword "x") ∧ ¬ ReflTransGen k.Expands "q" "p" := by
  intro k t
  have hget : k.properties.get? "p" = some "<'a'> | <'q'>" := rfl
  refine ⟨by decide +kernel, Catalog.tree?_eq_some hget (by decide +kernel), ?_, sidetracked_tree? _, fun h => ?_⟩
  · exact .joined ⟨rfl, by simp⟩ (List.mem_cons_of_mem _ (List.mem_singleton_self _)) (.reference rfl)
  · exact absurd (sidetracked_leads_nowhere h) (by decide)

/-- What is remembered of a definition is taken over under another name as well, with nothing
recorded for what the definition refers to: `q` was left out when `r` was resolved. -/
example :
    (Catalog.sessionAfter
      ⟨.ofList [], .ofList [("r", "<'q'>"), ("p", "<'q'>"), ("q", "<'r'>")], {}⟩
      [.property "r", .property "p"]).resolvedEntries = [.property "r", .property "p"] := by
  decide +kernel

end ValueSyntax
