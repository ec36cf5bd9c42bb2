import Mathlib.Data.Set.Insert
import ValueSyntax.Proofs.Resolve.Gathering

namespace ValueSyntax

open Ascending Shapes Relation

/-- From `a`, everything is done up to the `opened` elements: some set of done elements has no
edge out of it but to these. -/
def Covers {α : Type} (edge : α → α → Prop) (done : α → Prop) (opened : Set α) (a : α) : Prop :=
  ∃ D : Set α, (a ∈ D ∨ a ∈ opened) ∧ ∀ m ∈ D, done m ∧ ∀ c, edge m c → c ∈ D ∨ c ∈ opened

namespace Covers

variable {α : Type} {edge : α → α → Prop} {done : α → Prop} {opened opened' : Set α} {a b : α}

theorem of_mem (h : a ∈ opened) : Covers edge done opened a :=
  ⟨∅, Or.inr h, fun _ hm => hm.elim⟩

theorem of_reachable (h : ∀ m, ReflTransGen edge a m → done m) : Covers edge done opened a :=
  ⟨{m | ReflTransGen edge a m}, Or.inl .refl, fun _ hm => ⟨h _ hm, fun _ hc => Or.inl (hm.tail hc)⟩⟩

theorem mono (h : Covers edge done opened a) (ho : opened ⊆ opened') :
    Covers edge done opened' a := by
  obtain ⟨D, ha, hD⟩ := h
  exact ⟨D, ha.imp_right (@ho a), fun m hm => ⟨(hD m hm).1, fun c hc =>
    ((hD m hm).2 c hc).imp_right (@ho c)⟩⟩

theorem done_of_reachable (h : Covers edge done ∅ a) (hb : ReflTransGen edge a b) : done b := by
  obtain ⟨D, ha, hD⟩ := h
  have hmem : b ∈ D := by
    induction hb with
    | refl => exact ha.resolve_right id
    | tail _ hc ih => exact ((hD _ ih).2 _ hc).resolve_right id
  exact (hD b hmem).1

/-- An element closes itself: what leads back to it is no longer open. -/
theorem close (ha : done a) (h : ∀ c, edge a c → Covers edge done opened c)
    (ho : ∀ m ∈ opened, m = a ∨ m ∈ opened') : Covers edge done opened' a := by
  -- All that covers a successor, together with the element itself.
  refine ⟨{m | m = a ∨ ∃ D : Set α, m ∈ D ∧ ∀ m ∈ D, done m ∧ ∀ c, edge m c → c ∈ D ∨ c ∈ opened},
    Or.inl (Or.inl rfl), ?_⟩
  rintro m (rfl | ⟨D, hm, hD⟩)
  · refine ⟨ha, fun c hc => ?_⟩
    obtain ⟨D, hcD | hco, hD⟩ := h c hc
    · exact Or.inl (Or.inr ⟨D, hcD, hD⟩)
    · exact (ho c hco).imp_left Or.inl
  · refine ⟨(hD m hm).1, fun c hc => ?_⟩
    rcases (hD m hm).2 c hc with hcD | hco
    · exact Or.inl (Or.inr ⟨D, hcD, hD⟩)
    · exact (ho c hco).imp_left Or.inl

end Covers

section Finish

variable {settings : Settings} {s : Shapes} {x : Shape}

theorem mem_finish : x ∈ settings.finish s ↔
    x ∈ s ∨ (x = .anyString ∧ settings.fallbackOnEmpty ∧ ∀ y, y ∉ s) := by
  have hempty : s.isEmpty = true ↔ ∀ y, y ∉ s := by
    simp [isEmpty, mem_def, List.eq_nil_iff_forall_not_mem]
  unfold Settings.finish
  split
  · next h =>
    have hs := hempty.mp h.1
    simp [hs x, h.2, hs]
  · next h =>
    rw [hempty, and_comm] at h
    exact ⟨Or.inl, fun hx => hx.resolve_right fun hx => h hx.2⟩

theorem toList_ofList_finish : (ofList (settings.finish s)).toList = settings.finish s := by
  unfold Settings.finish
  split
  · rfl
  · rw [ofList_toList]

theorem exists_mem_finish (h : settings.fallbackOnEmpty) : ∃ y, y ∈ settings.finish s := by
  by_cases hs : ∃ y, y ∈ s
  · obtain ⟨y, hy⟩ := hs
    exact ⟨y, mem_finish.mpr (Or.inl hy)⟩
  · exact ⟨.anyString, mem_finish.mpr (Or.inr ⟨rfl, h, not_exists.mp hs⟩)⟩

end Finish

/-- What is known of a value of a property that was found on an expansion path, with references
to some properties of the path still open. -/
structure Approximates (k : Catalog) (path opened : Set String) (name : String) (s : Shapes) :
    Prop where
  sound : ∀ x ∈ s, k.Closure name x
  /-- What is missing is missing behind an open reference. -/
  complete : ∀ x, x ∉ s → Covers k.Contributes (fun m => ¬ k.Adds m x) opened name
  /-- A cycle through the path shows. -/
  cut : ∀ m ∈ path, ReflTransGen k.Contributes name m → .anyString ∈ s
  nonempty : k.settings.fallbackOnEmpty → ∃ x, x ∈ s
  readable : Covers k.Expands (fun m => (k.tree? m).isSome) opened name

/-- A type list is final for a tree: it has all shapes, and all that it depends on can be read. -/
structure Settled (k : Catalog) (t : Tree) (types : List Shape) : Prop where
  sorted : (ofList types).toList = types
  mem_iff : ∀ x, x ∈ types ↔ t.Closure k x
  nonempty : k.settings.fallbackOnEmpty → ∃ x, x ∈ types
  readable : ∀ name, t.Expands k name → ∀ m, ReflTransGen k.Expands name m → (k.tree? m).isSome

theorem Settled.unique {k : Catalog} {t : Tree} {l m : List Shape} (hl : Settled k t l)
    (hm : Settled k t m) : l = m := by
  have h : ofList l = ofList m := ext_mem fun x => by
    rw [mem_ofList, mem_ofList, hl.mem_iff, hm.mem_iff]
  rw [← hl.sorted, h, hm.sorted]

namespace Approximates

variable {k : Catalog} {path opened opened' : Set String} {name : String} {s : Shapes}

theorem mono (h : Approximates k path opened name s) (ho : opened ⊆ opened') :
    Approximates k path opened' name s where
  sound := h.sound
  complete x hx := (h.complete x hx).mono ho
  cut := h.cut
  nonempty := h.nonempty
  readable := h.readable.mono ho

theorem of_cycle (ho : name ∈ opened) (hc : TransGen k.Expands name name) :
    Approximates k path opened name any where
  sound x hx := by
    cases mem_any.mp hx
    exact Catalog.anyString_of_cycle hc
  complete _ _ := .of_mem ho
  cut _ _ _ := mem_any.mpr rfl
  nonempty _ := ⟨_, mem_any.mpr rfl⟩
  readable := .of_mem ho

theorem of_settled {t : Tree} {types : List Shape} (ht : k.tree? name = some t)
    (h : Settled k t types) (hpath : ∀ m ∈ path, TransGen k.Expands m name) :
    Approximates k path opened name (ofList types) where
  sound x hx := (Catalog.closure_iff ht).mpr ((h.mem_iff x).mp (mem_ofList.mp hx))
  complete x hx := by
    apply Covers.of_reachable
    intro m hm hadds
    exact hx (mem_ofList.mpr ((h.mem_iff x).mpr ((Catalog.closure_iff ht).mp ⟨m, hm, hadds⟩)))
  cut m hm hreach := by
    have hback : ReflTransGen k.Expands name m :=
      ReflTransGen.mono (fun _ _ hc => Catalog.Contributes.expands hc) name m hreach
    -- What leads to a property on the path lies on a cycle with it, and a cycle adds any string.
    have hcycle := TransGen.trans_right hback (hpath m hm)
    exact mem_ofList.mpr ((h.mem_iff _).mpr
      ((Catalog.closure_iff ht).mp (Catalog.anyString_of_cycle hcycle)))
  nonempty hf := by
    obtain ⟨x, hx⟩ := h.nonempty hf
    exact ⟨x, mem_ofList.mpr hx⟩
  readable := by
    apply Covers.of_reachable
    intro m hm
    rcases ReflTransGen.cases_head hm with rfl | ⟨c, ⟨t', ht', hc⟩, hm⟩
    · simp [ht]
    · cases ht.symm.trans ht'
      exact h.readable c hc m hm

/-- With no reference open, nothing is missing. -/
theorem settled {t : Tree} {types : List Shape} (ht : k.tree? name = some t)
    (hs : (ofList types).toList = types) (h : Approximates k path ∅ name (ofList types)) :
    Settled k t types where
  sorted := hs
  mem_iff x := by
    rw [← Catalog.closure_iff ht, ← mem_ofList]
    refine ⟨h.sound x, fun ⟨m, hm, hadds⟩ => ?_⟩
    by_contra hx
    exact (h.complete x hx).done_of_reachable hm hadds
  nonempty hf := by
    obtain ⟨x, hx⟩ := h.nonempty hf
    exact ⟨x, mem_ofList.mp hx⟩
  readable c hc m hm := h.readable.done_of_reachable (.head ⟨t, ht, hc⟩ hm)

end Approximates

section Gathered

variable {k : Catalog} {path opened : Set String} {t : Tree} {s : Shapes} {x : Shape}

theorem closure_of_mem_finish (h : Gathers k t (Approximates k path opened) s)
    (hx : x ∈ k.settings.finish s) : t.Closure k x := by
  rcases mem_finish.mp hx with hx | ⟨rfl, hf, hempty⟩
  · rcases h.bounded x hx with hx | ⟨c, v, hc, hv, hx⟩
    · exact Or.inl (Or.inl hx)
    · exact Or.inr ⟨c, hc, hv.sound x hx⟩
  · refine Or.inl (Or.inr ⟨rfl, hf, fun y hy => hempty y (h.own y hy), fun c hc => ?_⟩)
    obtain ⟨v, hv, hsub⟩ := h.contributed c hc
    obtain ⟨y, hy⟩ := hv.nonempty hf
    exact hempty y (hsub y hy)

theorem mem_finish_of_yields {value : String → Shapes → Prop} (h : Gathers k t value s)
    (hx : t.Yields k x) : x ∈ k.settings.finish s := by
  rcases hx with hx | ⟨rfl, hf, hown, hnone⟩
  · exact mem_finish.mpr (Or.inl (h.own x hx))
  · refine mem_finish.mpr (Or.inr ⟨rfl, hf, fun y hy => ?_⟩)
    rcases h.bounded y hy with hy | ⟨c, _, hc, _⟩
    · exact hown y hy
    · exact hnone c hc

theorem mem_finish_of_contributed {value : String → Shapes → Prop} {name : String}
    (h : Gathers k t value s) (hc : t.Contributes k name) :
    ∃ v, value name v ∧ ∀ x ∈ v, x ∈ k.settings.finish s := by
  obtain ⟨v, hv, hsub⟩ := h.contributed name hc
  exact ⟨v, hv, fun x hx => mem_finish.mpr (Or.inl (hsub x hx))⟩

end Gathered

/-- Expanding a property: the values of its references were found with the property on the path,
and references back to it are closed. -/
theorem Approximates.of_gathers {k : Catalog} {path opened opened' : Set String} {name : String}
    {t : Tree} {s : Shapes} (ht : k.tree? name = some t) (hname : name ∉ path)
    (h : Gathers k t (Approximates k (insert name path) opened) s)
    (ho : ∀ m ∈ opened, m = name ∨ m ∈ opened') :
    Approximates k path opened' name (ofList (k.settings.finish s)) where
  sound x hx := (Catalog.closure_iff ht).mpr (closure_of_mem_finish h (mem_ofList.mp hx))
  complete x hx := by
    rw [mem_ofList] at hx
    have hcontr : ∀ c, k.Contributes name c → ∃ v, x ∉ v ∧
        Approximates k (insert name path) opened c v := by
      rintro c ⟨t', ht', hc⟩
      cases ht.symm.trans ht'
      obtain ⟨v, hv, hsub⟩ := mem_finish_of_contributed h hc
      exact ⟨v, fun hxv => hx (hsub x hxv), hv⟩
    refine Covers.close ?_ (fun c hc => ?_) ho
    · rintro (⟨t', ht', hyields⟩ | ⟨rfl, hcycle⟩)
      · cases ht.symm.trans ht'
        exact hx (mem_finish_of_yields h hyields)
      · -- The next property on the cycle leads back to this one, which is on its path.
        obtain ⟨c, hc, hback⟩ := TransGen.head'_iff.mp hcycle
        obtain ⟨v, hxv, hv⟩ := hcontr c hc
        exact hxv (hv.cut name (Set.mem_insert _ _) hback)
    · obtain ⟨v, hxv, hv⟩ := hcontr c hc
      exact hv.complete x hxv
  cut m hm hreach := by
    rcases ReflTransGen.cases_head hreach with rfl | ⟨c, ⟨t', ht', hc⟩, hreach⟩
    · exact absurd hm hname
    · cases ht.symm.trans ht'
      obtain ⟨v, hv, hsub⟩ := mem_finish_of_contributed h hc
      exact mem_ofList.mpr (hsub _ (hv.cut m (Set.mem_insert_of_mem _ hm) hreach))
  nonempty hf := by
    obtain ⟨x, hx⟩ := exists_mem_finish hf
    exact ⟨x, mem_ofList.mpr hx⟩
  readable := by
    refine Covers.close (by simp [ht]) ?_ ho
    rintro c ⟨t', ht', hc⟩
    cases ht.symm.trans ht'
    obtain ⟨v, hv⟩ := h.expanded c hc
    exact hv.readable

/-- Where nothing is open, there is one set that a tree gathers. -/
theorem mem_iff_of_gathers {k : Catalog} {path : Set String} {t : Tree} {s : Shapes}
    (h : Gathers k t (Approximates k path ∅) s) {x : Shape} :
    x ∈ s ↔ x ∈ t.own k ∨ ∃ name, t.Contributes k name ∧ k.Closure name x := by
  constructor
  · intro hx
    refine (h.bounded x hx).imp_right ?_
    rintro ⟨name, v, hc, hv, hx⟩
    exact ⟨name, hc, hv.sound x hx⟩
  · rintro (hx | ⟨name, hc, m, hm, hadds⟩)
    · exact h.own x hx
    · obtain ⟨v, hv, hsub⟩ := h.contributed name hc
      by_contra hx
      exact (hv.complete x fun hxv => hx (hsub x hxv)).done_of_reachable hm hadds

theorem Gathers.unique {k : Catalog} {path : Set String} {t : Tree} {s s' : Shapes}
    (h : Gathers k t (Approximates k path ∅) s) (h' : Gathers k t (Approximates k path ∅) s') :
    s = s' :=
  ext_mem fun _ => by rw [mem_iff_of_gathers h, mem_iff_of_gathers h']

theorem Settled.of_gathers {k : Catalog} {path : Set String} {t : Tree} {s : Shapes}
    (h : Gathers k t (Approximates k path ∅) s) : Settled k t (k.settings.finish s) where
  sorted := toList_ofList_finish
  mem_iff x := by
    refine ⟨closure_of_mem_finish h, ?_⟩
    rintro (hx | ⟨c, hc, m, hm, hadds⟩)
    · exact mem_finish_of_yields h hx
    · obtain ⟨v, hv, hsub⟩ := mem_finish_of_contributed h hc
      by_contra hx
      exact (hv.complete x fun hxv => hx (hsub x hxv)).done_of_reachable hm hadds
  nonempty hf := exists_mem_finish hf
  readable c hc m hm := by
    obtain ⟨v, hv⟩ := h.expanded c hc
    exact hv.readable.done_of_reachable hm

end ValueSyntax
