import ValueSyntax.CommandLine.Report
import ValueSyntax.Proofs.Resolve.Bookkeeping

namespace ValueSyntax

def Source.Readable (source : Source) : Prop := ∃ t, source.tree = .ok t

def Definitions.descriptorSource (e : String × String × String) : Source :=
  ⟨descriptorName e.1 e.2.1, e.2.2⟩

/-- All definitions can be read, but for those of built-in data types, which are never looked at. -/
structure Definitions.Readable (d : Definitions) : Prop where
  properties : ∀ e ∈ d.properties.entries, Source.Readable ⟨e.1, e.2⟩
  descriptors : ∀ e ∈ d.descriptors, (descriptorSource e).Readable
  dataTypes : ∀ e ∈ d.dataTypes.entries, Builtin.ofName? e.1 = none → Source.Readable ⟨e.1, e.2⟩

theorem Source.Readable.ne_error {source : Source} {e : Failure} (h : source.Readable) :
    source.tree ≠ .error e := by
  obtain ⟨t, ht⟩ := h
  rw [ht]
  exact nofun

theorem Source.readable_of_sourceAfresh {k : Catalog} {expand : String → Except Failure Shapes}
    {source : Source} {types : List Shape} (h : sourceAfresh k expand source = .ok types) :
    source.Readable := by
  obtain ⟨t, _, ht, -⟩ := sourceAfresh_eq_ok_iff.mp h
  exact ⟨t, Source.tree_eq_ok_iff.mpr ht⟩

namespace Definitions

variable {d : Definitions} {settings : Settings}

theorem not_readable_of_entryFault {e : Failure} (h : (d.catalog settings).EntryFault e) :
    ¬ d.Readable := by
  intro hd
  obtain ⟨entry, text, hdef, h⟩ := h
  cases entry with
  | property name => exact (hd.properties _ (Table.mem_of_get? hdef)).ne_error h
  | dataType name =>
    obtain ⟨hb, hget⟩ := hdef
    exact (hd.dataTypes _ (Table.mem_of_get? hget) hb).ne_error h

/-- In a session that is in order a computation comes to an end only if `done` holds, in a session
that is in order again. It fails only if some definition cannot be read. -/
def Reports (d : Definitions) (settings : Settings) {α : Type} (x : Reporting α) (done : Prop) :
    Prop :=
  ∀ r : Report, r.session.Ready (d.catalog settings) →
    r.session.Booked (d.catalog settings) [] →
      match x r with
      | .ok _ r' => r'.session.Ready (d.catalog settings) ∧
          r'.session.Booked (d.catalog settings) [] ∧ done
      | .error _ _ => ¬ d.Readable

namespace Reports

variable {α β : Type} {done done' : Prop}

theorem bind {x : Reporting α} {f : α → Reporting β} (hx : d.Reports settings x done)
    (hf : done → ∀ a, d.Reports settings (f a) done') : d.Reports settings (x >>= f) done' := by
  intro r hready hbooked
  have h := hx r hready hbooked
  show match EStateM.bind x f r with | .ok _ _ => _ | .error _ _ => _
  unfold EStateM.bind
  cases hr : x r with
  | ok a r' =>
    rw [hr] at h
    obtain ⟨hready', hbooked', hdone⟩ := h
    exact hf hdone a r' hready' hbooked'
  | error e r' =>
    rw [hr] at h
    exact h

theorem pure (a : α) (h : done) : d.Reports settings (Pure.pure a) done :=
  fun _ hready hbooked => ⟨hready, hbooked, h⟩

theorem write (line : String) (h : done) : d.Reports settings (Report.write line) done :=
  fun _ hready hbooked => ⟨hready, hbooked, h⟩

theorem ask {x : Resolving α}
    (hx : ∀ s, s.Ready (d.catalog settings) →
      Ensures x s (fun _ s' => s'.Ready (d.catalog settings) ∧ done)
        (Session.Ready (d.catalog settings)))
    (hfault : Confines (Session.Booked (d.catalog settings) []) (fun _ => ¬ d.Readable) x) :
    d.Reports settings (Report.ask x) done := by
  intro r hready hbooked
  have h := hx r.session hready
  have hf := hfault r.session hbooked
  unfold Report.ask
  cases hr : x r.session with
  | ok a s' => exact ⟨(h.of_ok hr).1, hf.of_ok hr, (h.of_ok hr).2⟩
  | error e s' => exact (hf.of_error hr).2

theorem forM {f : α → Reporting Unit} (h : ∀ a, d.Reports settings (f a) True) :
    ∀ l : List α, d.Reports settings (l.forM f) True
  | [] => .pure _ trivial
  | a :: l => .bind (h a) fun _ _ => forM h l

end Reports

theorem reports_writeResolution (name : String) (r : Resolution) :
    d.Reports settings (Report.writeResolution (d.catalog settings) true name r) True := by
  have hnormalize := (Session.Booked.upheld (d.catalog settings)).normalize r.types
  have hunion : d.Reports settings
      (Report.ask (Report.unionOf (d.catalog settings) true r.types)) True := by
    refine .ask (fun s hs => ?_) ?_
    · rw [Report.unionOf, if_pos rfl, Ensures.bind_iff]
      exact (ensures_normalize r.types hs).imp fun _ _ h => ⟨h.1, trivial⟩
    · exact .bind (hnormalize.imp fun _ => not_readable_of_entryFault) fun _ => .pure _
  exact hunion.bind fun _ _ => .write _ trivial

theorem reports_properties :
    d.Reports settings
      (Report.ask (resolveProperties (d.catalog settings) (d.catalog settings).properties.keys))
      (∀ e ∈ d.properties.entries, Source.Readable ⟨e.1, e.2⟩) := by
  have hfault := (Session.Booked.upheld (d.catalog settings)).resolveProperties
    (d.catalog settings).properties.keys
  refine .ask (fun s hs => ?_) (hfault.imp fun _ => not_readable_of_entryFault)
  apply (ensures_resolveProperties (fun _ he => he) hs).imp
  rintro l s' ⟨hs', -, hafresh⟩
  refine ⟨hs', fun e he => ?_⟩
  -- All properties have types, so the text of each of them was read.
  obtain ⟨_, -, h⟩ := exists_of_forall₂ (forall₂_of_mapM hafresh) e he
  obtain ⟨types, htypes, -⟩ := map_eq_ok_iff.mp h
  exact Source.readable_of_sourceAfresh htypes

theorem reports_dataTypes :
    d.Reports settings
      (Report.ask (resolveDataTypes (d.catalog settings) (d.catalog settings).dataTypes.keys))
      (∀ e ∈ d.dataTypes.entries, Builtin.ofName? e.1 = none → Source.Readable ⟨e.1, e.2⟩) := by
  have hfault := (Session.Booked.upheld (d.catalog settings)).resolveDataTypes
    (d.catalog settings).dataTypes.keys
  refine .ask (fun s hs => ?_) (hfault.imp fun _ => not_readable_of_entryFault)
  apply (ensures_resolveDataTypes _ hs).imp
  rintro l s' ⟨hs', -, hafresh⟩
  refine ⟨hs', fun e he hb => ?_⟩
  obtain ⟨_, -, h⟩ :=
    exists_of_forall₂ (forall₂_of_mapM hafresh) e.1 (List.mem_map_of_mem he)
  obtain ⟨types, htypes, -⟩ := map_eq_ok_iff.mp h
  have hget : (d.catalog settings).dataTypes.get? e.1 = some e.2 := Table.get?_of_mem he
  rw [dataTypeAfresh, hb, hget] at htypes
  exact Source.readable_of_sourceAfresh htypes

theorem ensures_resolveDescriptors {k : Catalog} {s : Session} (hs : s.Ready k) :
    ∀ l : List (String × String × String), Ensures (resolveDescriptors k l) s
      (fun _ s' => s'.Ready k ∧ ∀ e ∈ l, (descriptorSource e).Readable) (Session.Ready k)
  | [] => ⟨hs, nofun⟩
  | (rule, descriptor, text) :: l => by
    rw [resolveDescriptors, Ensures.bind_iff]
    apply (ensures_resolveText ⟨descriptorName rule descriptor, text⟩ hs).imp
    rintro r s₁ ⟨hs₁, hafresh, -⟩
    rw [Ensures.bind_iff]
    apply (ensures_resolveDescriptors hs₁ l).imp
    rintro others s₂ ⟨hs₂, hl⟩
    exact ⟨hs₂, List.forall_mem_cons.mpr ⟨Source.readable_of_sourceAfresh hafresh, hl⟩⟩

theorem confines_resolveDescriptors (l : List (String × String × String))
    (hl : l ⊆ d.descriptors) :
    Confines (Session.Booked (d.catalog settings) []) (fun _ => ¬ d.Readable)
      (resolveDescriptors (d.catalog settings) l) := by
  induction l with
  | nil => exact .pure _
  | cons e l ih =>
    obtain ⟨rule, descriptor, text⟩ := e
    have htext := (Session.Booked.upheld (d.catalog settings)).resolveText
      (descriptorSource (rule, descriptor, text))
    refine .bind (htext.imp ?_) fun _ => .bind (ih ?_) fun _ => .pure _
    · rintro e (h | h) hd
      · exact (hd.descriptors _ (hl (List.mem_cons_self ..))).ne_error h
      · exact not_readable_of_entryFault h hd
    · exact fun e he => hl (List.mem_cons_of_mem _ he)

theorem reports_descriptors :
    d.Reports settings (Report.ask (resolveDescriptors (d.catalog settings) d.descriptors))
      (∀ e ∈ d.descriptors, (descriptorSource e).Readable) :=
  .ask (fun _ hs => ensures_resolveDescriptors hs _)
    (confines_resolveDescriptors _ (List.Subset.refl _))

theorem reports_writeAll :
    d.Reports settings (Report.writeAll d (d.catalog settings) true) d.Readable := by
  refine .bind reports_properties fun hproperties _ => ?_
  refine .bind (.forM (fun _ => reports_writeResolution _ _) _) fun _ _ => ?_
  refine .bind reports_descriptors fun hdescriptors _ => ?_
  refine .bind (.forM (fun _ => reports_writeResolution _ _) _) fun _ _ => ?_
  simp only [if_true]
  refine .bind reports_dataTypes fun hdataTypes _ => ?_
  refine .bind (.forM (fun _ => reports_writeResolution _ _) _) fun _ _ => ?_
  have hreadable : d.Readable := ⟨hproperties, hdescriptors, hdataTypes⟩
  split
  · exact .write _ hreadable
  · exact .pure _ hreadable

theorem exists_writeAll_iff (d : Definitions) (settings : Settings) :
    (∃ r, Report.writeAll d (d.catalog settings) true {} = .ok ⟨⟩ r) ↔ d.Readable := by
  have h := @reports_writeAll d settings {} .start .start
  cases hrun : Report.writeAll d (d.catalog settings) true {} with
  | ok u r =>
    rw [hrun] at h
    obtain ⟨-, -, hreadable⟩ := h
    exact ⟨fun _ => hreadable, fun _ => ⟨r, rfl⟩⟩
  | error e r =>
    rw [hrun] at h
    exact ⟨nofun, fun hreadable => absurd hreadable h⟩

theorem exit_outcome_eq_zero_iff (d : Definitions) (options : Options) :
    (Report.outcome d options).exit = 0 ↔
      ∃ r, Report.writeAll d (d.catalog options.settings) options.normalized {} = .ok ⟨⟩ r := by
  unfold Report.outcome
  split
  · next r hrun => exact ⟨fun _ => ⟨r, hrun⟩, fun _ => rfl⟩
  · next hrun =>
    rw [hrun]
    exact ⟨nofun, nofun⟩

/-- A run that writes normalized types succeeds if and only if it can read all definitions. -/
theorem exit_eq_zero_iff (d : Definitions) (options : Options) :
    (Report.outcome d { options with normalized := true }).exit = 0 ↔ d.Readable := by
  rw [exit_outcome_eq_zero_iff]
  exact exists_writeAll_iff d options.settings

end Definitions

end ValueSyntax
