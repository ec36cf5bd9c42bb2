import ValueSyntax.Proofs.Resolve.Expanding

namespace ValueSyntax

open Ascending Shapes Relation

variable {k : Catalog} {s : Session}

theorem Catalog.Final.dataTypeAfresh {name : String} {types : List Shape}
    (h : k.Final (.dataType name) types) : dataTypeAfresh k name = .ok types := by
  unfold ValueSyntax.dataTypeAfresh
  cases h with
  | builtin h =>
    rw [h]
    rfl
  | defined hdef ht hs =>
    rw [hdef.1, hdef.2]
    exact hs.sourceAfresh ht

theorem dataTypeAfresh_of_unknown {name : String} (hb : Builtin.ofName? name = none)
    (hd : k.dataTypes.get? name = none) : dataTypeAfresh k name = .ok [.anyString] := by
  unfold dataTypeAfresh
  rw [hb, hd]
  rfl

/-- With nothing else being expanded, an entry ends with its final shapes. -/
theorem ensures_entry {entry : Entry} {text : String} (hdef : k.Defines entry text)
    (hs : s.Below k ∅) :
    Ensures (resolveEntry k (expandProperty k [entry]) entry text) s
      (fun types s' => s'.Below k ∅ ∧ ∃ t, Tree.ofText text = .ok t ∧ Settled k t types)
      (Session.Below k ∅) := by
  have hnext : ∀ c, (∃ t, Tree.ofText text = .ok t ∧ t.Expands k c) →
      ∀ m ∈ propertiesOn [entry], TransGen k.Expands m c := by
    intro c ⟨t, ht, hc⟩ m hm
    obtain rfl : entry = .property m := (List.mem_singleton.mp hm).symm
    exact .single ⟨t, Catalog.tree?_eq_some hdef ht, hc⟩
  rw [← propertiesOn_nil] at hs ⊢
  apply (ensures_resolveEntry hdef List.not_mem_nil (by simp)
    (ensures_expandProperty [entry] hnext) hs).imp
  intro types s' h
  have hclosed := h.below.opened
  rw [propertiesOn_nil] at hclosed
  exact ⟨h.below, h.settled (Set.subset_empty_iff.mp hclosed)⟩

theorem ensures_dataTypeShapes (name : String) (hs : s.Below k ∅) :
    Ensures (dataTypeShapes k name) s
      (fun types s' => s'.Below k ∅ ∧ dataTypeAfresh k name = .ok types) (Session.Below k ∅) := by
  rw [dataTypeShapes, Ensures.bind_iff, Ensures.get_iff]
  split
  · next types hl => exact ⟨hs, (hs.sound.entries _ _ hl).dataTypeAfresh⟩
  · split
    · next builtin hb =>
      simp only [Ensures.bind_iff, Ensures.modify_iff, Ensures.pure_iff]
      have hfinal := Catalog.Final.builtin (k := k) hb
      exact ⟨⟨hs.sound.rememberEntry hfinal, hs.opened⟩, hfinal.dataTypeAfresh⟩
    · next hb =>
      split
      · next text hget =>
        have hdef : k.Defines (.dataType name) text := ⟨hb, hget⟩
        apply (ensures_entry hdef hs).imp
        rintro types s' ⟨hs', t, ht, hsettled⟩
        exact ⟨hs', (Catalog.Final.defined hdef ht hsettled).dataTypeAfresh⟩
      · next hget =>
        simp only [warn, Ensures.bind_iff, Ensures.modify_iff, Ensures.pure_iff]
        exact ⟨hs.warn, dataTypeAfresh_of_unknown hb hget⟩

theorem ensures_gathers (t : Tree) (referrer : String) (hs : s.Below k ∅) :
    Ensures (t.shapes k (expandProperty k []) referrer) s
      (fun shapes s' => s'.Below k ∅ ∧ t.Supplied k ∧ Gathers k t (Approximates k ∅ ∅) shapes)
      (Session.Below k ∅) := by
  have hexp := @ensures_expandProperty k [] (fun _ => True) (by simp)
  rw [propertiesOn_nil] at hexp
  apply (ensures_shapes hexp t s (fun _ _ => trivial) hs).imp
  intro shapes s' h
  have hgathers := h.gathers
  rw [Set.subset_empty_iff.mp h.below.opened] at hgathers
  exact ⟨h.below, h.supplied, hgathers⟩

theorem ensures_tree (t : Tree) (referrer : String) (hs : s.Below k ∅) :
    Ensures (t.shapes k (expandProperty k []) referrer) s
      (fun shapes s' => s'.Below k ∅ ∧ t.Supplied k ∧ Settled k t (k.settings.finish shapes))
      (Session.Below k ∅) :=
  (ensures_gathers t referrer hs).imp fun _ _ ⟨hs', hsupplied, hgathers⟩ =>
    ⟨hs', hsupplied, .of_gathers hgathers⟩

theorem ensures_textShapes (source : Source) (hs : s.Below k ∅) :
    Ensures (textShapes k source) s
      (fun types s' => s'.Below k ∅ ∧ sourceAfresh k (propertyAfresh k []) source = .ok types)
      (Session.Below k ∅) := by
  rw [textShapes, Ensures.bind_iff, Ensures.get_iff]
  split
  · next types hl =>
    obtain ⟨t, ht, hsettled⟩ := hs.sound.texts _ _ hl
    simp only [Ensures.bind_iff, Ensures.modify_iff, Ensures.pure_iff]
    exact ⟨hs.hitText, hsettled.sourceAfresh ht⟩
  · have hexp := @ensures_expandProperty k [] (fun _ => True) (by simp)
    rw [propertiesOn_nil] at hexp
    rw [Ensures.bind_iff]
    apply (ensures_resolveSource hexp (fun _ _ _ _ => trivial) hs).imp
    intro types s' h
    obtain ⟨t, shapes, ht, rfl, hgathers⟩ := h.gathers
    -- With no property on the path no cycle can stay open.
    rw [Set.subset_empty_iff.mp h.below.opened] at hgathers
    have hsettled := Settled.of_gathers hgathers
    rw [Ensures.bind_iff, Ensures.get_iff]
    split
    · simp only [Ensures.bind_iff, Ensures.modify_iff, Ensures.pure_iff]
      exact ⟨⟨h.below.sound.rememberText ht hsettled, h.below.opened⟩, hsettled.sourceAfresh ht⟩
    · rw [Ensures.pure_iff]
      exact ⟨h.below, hsettled.sourceAfresh ht⟩

end ValueSyntax
