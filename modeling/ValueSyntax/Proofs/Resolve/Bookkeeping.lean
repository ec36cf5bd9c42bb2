import Mathlib.Data.List.Nodup
import ValueSyntax.Proofs.Resolve.Upheld

namespace ValueSyntax

/-- The books of a session while the entries of a path are being resolved. -/
structure Session.Booked (k : Catalog) (path : List Entry) (s : Session) : Prop where
  midway : s.Midway path
  /-- The path is what is marked, so a reference closes a cycle where it meets a mark. -/
  inProgress : s.inProgress = path
  /-- Only what is being resolved is open. -/
  openCycles : ∀ name ∈ s.openCycles, .property name ∈ path
  parsed : s.statistics.parsedTexts = s.trees.length
  trees : (s.trees.map Prod.fst).Nodup
  counted : s.statistics.resolvedNames = s.resolved.length
  resolved : s.resolved.Nodup
  defined : ∀ e ∈ s.resolved, ∃ text, k.Defines e text
  remembered : ∀ e ∈ s.resolved, e ∈ s.entries.map Prod.fst
  entries : ∀ e ∈ s.entries.map Prod.fst, e ∈ s.resolved ∨
    ∃ name builtin, e = .dataType name ∧ Builtin.ofName? name = some builtin
  warned : s.warnings.length =
    s.statistics.unknownReferences + s.statistics.cycles + s.statistics.overflows

namespace Session.Booked

variable {k : Catalog} {path : List Entry} {s : Session}

theorem start : Booked k [] {} := by
  refine ⟨⟨nofun, nofun⟩, ?_, ?_, ?_, ?_, ?_, ?_, ?_, ?_, ?_, ?_⟩ <;> simp

theorem warn (h : s.Booked k path) (w : Warning) : (s.warn w).Booked k path := by
  have hwarned : (s.warn w).warnings.length = (s.warn w).statistics.unknownReferences +
      (s.warn w).statistics.cycles + (s.warn w).statistics.overflows := by
    have h := h.warned
    cases w <;> simp only [Session.warn, Session.count, List.length_cons] <;> omega
  have hmidway : (s.warn w).Midway path := h.midway.of_eq rfl rfl
  cases w <;> exact { h with midway := hmidway, warned := hwarned }

theorem rememberTree (h : s.Booked k path) {text : String} {t : Tree}
    (hl : s.trees.lookup text = none) (ht : Tree.ofText text = .ok t) :
    (s.rememberTree text t).Booked k path :=
  { h with
    midway := ⟨lookup_rememberTree h.midway.read ht, h.midway.unfinished⟩
    parsed := congrArg (· + 1) h.parsed
    trees := List.nodup_cons.mpr ⟨not_mem_of_lookup hl, h.trees⟩ }

theorem rememberEntry (h : s.Booked k []) {name : String} {builtin : Builtin}
    (hb : Builtin.ofName? name = some builtin) :
    (s.rememberEntry (.dataType name) [builtin.shape]).Booked k [] :=
  { h with
    midway := ⟨h.midway.read, nofun⟩
    remembered := fun e he => List.mem_cons_of_mem _ (h.remembered e he)
    entries := List.forall_mem_cons.mpr ⟨Or.inr ⟨name, builtin, rfl, hb⟩, h.entries⟩ }

theorem record (h : s.Booked k path) {entry : Entry} {text : String} (hdef : k.Defines entry text)
    (hpath : entry ∉ path) (hnew : entry ∉ s.entries.map Prod.fst) (types : List Shape) :
    (s.record entry types).Booked k path :=
  { h with
    midway := h.midway.record hpath types
    counted := congrArg (· + 1) h.counted
    resolved := List.nodup_cons.mpr ⟨fun hmem => hnew (h.remembered entry hmem), h.resolved⟩
    defined := List.forall_mem_cons.mpr ⟨⟨text, hdef⟩, h.defined⟩
    remembered := by
      refine List.forall_mem_cons.mpr ⟨List.mem_cons_self .., fun e he => ?_⟩
      exact List.mem_cons_of_mem _ (h.remembered e he)
    entries := by
      refine List.forall_mem_cons.mpr ⟨Or.inl (List.mem_cons_self ..), fun e he => ?_⟩
      exact (h.entries e he).imp_left (List.mem_cons_of_mem _) }

theorem openCycle (h : s.Booked k path) {name : String} (hp : .property name ∈ path) :
    (s.openCycle name).Booked k path := by
  unfold Session.openCycle
  split
  · exact h
  · exact
      { h with
        midway := h.midway.of_eq rfl rfl
        openCycles := List.forall_mem_cons.mpr ⟨hp, h.openCycles⟩ }

theorem enter (h : s.Booked k path) {entry : Entry} (hpath : entry ∉ path)
    (hnew : entry ∉ s.entries.map Prod.fst) : (s.enter entry).Booked k (entry :: path) := by
  have hmidway := h.midway.enter hnew
  unfold Session.enter at hmidway ⊢
  rw [h.inProgress, if_neg hpath] at hmidway ⊢
  exact
    { h with
      midway := hmidway
      inProgress := rfl
      openCycles := fun name hname => List.mem_cons_of_mem _ (h.openCycles name hname) }

theorem close {entry : Entry} (h : s.Booked k (entry :: path)) (hpath : entry ∉ path) :
    (s.close entry).Booked k path := by
  have hprogress : s.inProgress.filter (· ≠ entry) = path := by
    rw [h.inProgress, List.filter_cons_of_neg (by simp), List.filter_eq_self]
    intro e he
    simpa using ne_of_mem_of_not_mem he hpath
  cases entry with
  | property name =>
    refine { h with midway := h.midway.close, inProgress := hprogress, openCycles := ?_ }
    intro m hm
    obtain ⟨hm, hne⟩ := List.mem_filter.mp hm
    refine (List.mem_cons.mp (h.openCycles m hm)).resolve_left fun he => ?_
    cases he
    simp at hne
  | dataType name =>
    refine { h with midway := h.midway.close, inProgress := hprogress, openCycles := ?_ }
    intro m hm
    exact (List.mem_cons.mp (h.openCycles m hm)).resolve_left nofun

theorem upheld (k : Catalog) : Upheld k (Session.Booked k) where
  midway h := h.midway
  warn _ _ w _ h := h.warn w
  catalog _ _ := trivial
  hitTree h := { h with midway := h.midway.of_eq rfl rfl }
  rememberTree h := h.rememberTree
  hitText h := { h with midway := h.midway.of_eq rfl rfl }
  rememberText h _ _ := { h with midway := h.midway.of_eq rfl rfl }
  rememberEntry h := h.rememberEntry
  record h := h.record
  openCycle h := h.openCycle
  enter h := h.enter
  close h := h.close
  rememberLength _ _ _ h := { h with midway := h.midway.of_eq rfl rfl }

/-- Each tree that is remembered is the one that its text is read to, whatever it is called. -/
theorem tree_of_mem (h : s.Booked k path) {e : String × Tree} (he : e ∈ s.trees) (name : String) :
    Source.tree ⟨name, e.1⟩ = .ok e.2 := by
  have hl : s.trees.lookup e.1 = some e.2 := Table.get?_of_mem (t := ⟨s.trees, h.trees⟩) he
  exact Source.tree_eq_ok_iff.mpr (h.midway.read _ _ hl)

end Session.Booked

/-- After any history the books are in order: nothing is marked as being resolved, each text is
read once and counted once, each entry is resolved once and counted once, what is remembered of
entries is what was resolved apart from built-in data types, and each warning is counted once. -/
theorem books_of_history (k : Catalog) (history : List Request) :
    let s := k.sessionAfter history
    (s.inProgress = [] ∧ s.openCycles = []) ∧
    (s.statistics.parsedTexts = s.trees.length ∧ (s.trees.map Prod.fst).Nodup ∧
      ∀ e ∈ s.trees, ∀ name, Source.tree ⟨name, e.1⟩ = .ok e.2) ∧
    (s.statistics.resolvedNames = s.resolvedEntries.length ∧ s.resolvedEntries.Nodup ∧
      (∀ e ∈ s.resolvedEntries, ∃ text, k.Defines e text) ∧
      (∀ e ∈ s.resolvedEntries, e ∈ s.entries.map Prod.fst) ∧
      ∀ e ∈ s.entries.map Prod.fst, e ∈ s.resolvedEntries ∨
        ∃ name builtin, e = .dataType name ∧ Builtin.ofName? name = some builtin) ∧
    s.warningList.length =
      s.statistics.unknownReferences + s.statistics.cycles + s.statistics.overflows := by
  intro s
  have h : s.Booked k [] := (Session.Booked.upheld k).sessionAfter .start history
  -- An open cycle is on the path, and at rest the path is empty.
  have hopen : s.openCycles = [] :=
    List.eq_nil_iff_forall_not_mem.mpr fun name hname => List.not_mem_nil (h.openCycles name hname)
  refine ⟨⟨h.inProgress, hopen⟩, ⟨h.parsed, h.trees, fun e he name => ?_⟩, ⟨?_, ?_, ?_, ?_, ?_⟩, ?_⟩
  · exact h.tree_of_mem he name
  · rw [Session.resolvedEntries, List.length_reverse]
    exact h.counted
  · exact List.nodup_reverse.mpr h.resolved
  · exact fun e he => h.defined e (List.mem_reverse.mp he)
  · exact fun e he => h.remembered e (List.mem_reverse.mp he)
  · exact fun e he => (h.entries e he).imp_left List.mem_reverse.mpr
  · rw [Session.warningList, List.length_reverse]
    exact h.warned

end ValueSyntax
