import ValueSyntax.Proofs.Resolve.Reach

namespace ValueSyntax

open Relation

/-- The walk over a stack of data types comes to one whose shapes cannot be told. It ends well at
those that are known to reach the length and at those that list it. -/
inductive Catalog.Stumbles (k : Catalog) (known : String → Prop) :
    List String → List String → Prop
  | unreadable {visited stack : List String} {name : String} (hn : name ∉ visited)
      (hk : ¬ known name) (h : ¬ k.Readable name) : Stumbles k known visited (name :: stack)
  | skip {visited stack : List String} {name : String} (hn : name ∈ visited)
      (h : Stumbles k known visited stack) : Stumbles k known visited (name :: stack)
  | follow {visited stack : List String} {name : String} {types : List Shape} (hn : name ∉ visited)
      (hk : ¬ known name) (ht : dataTypeAfresh k name = .ok types) (hl : .length ∉ types)
      (h : Stumbles k known (name :: visited) ((dataTypeNames types).reverse ++ stack)) :
      Stumbles k known visited (name :: stack)

/-- Two lists of visited data types differ in barren ones only. -/
def Catalog.Alike (k : Catalog) (visited visited' : List String) : Prop :=
  ∀ n, ¬ k.Barren n → (n ∈ visited ↔ n ∈ visited')

open Classical in
/-- The data types of a stack that may lead to something. -/
noncomputable def Catalog.fertile (k : Catalog) (stack : List String) : List String :=
  stack.filter (¬ k.Barren ·)

variable {k : Catalog} {known known' : String → Prop} {visited visited' stack stack' : List String}
  {name : String} {types : List Shape}

namespace Catalog

theorem Alike.refl (k : Catalog) (visited : List String) : k.Alike visited visited :=
  fun _ _ => Iff.rfl

theorem Alike.cons (h : k.Alike visited visited') (name : String) :
    k.Alike (name :: visited) (name :: visited') := by
  intro n hn
  simp only [List.mem_cons, h n hn]

theorem Alike.cons_left (h : k.Alike visited visited') (hb : k.Barren name) :
    k.Alike (name :: visited) visited' := by
  intro n hn
  have hne : n ≠ name := by
    rintro rfl
    exact hn hb
  simp [hne, h n hn]

theorem Alike.trans {visited'' : List String} (h : k.Alike visited visited')
    (h' : k.Alike visited' visited'') : k.Alike visited visited'' :=
  fun n hn => (h n hn).trans (h' n hn)

theorem Alike.symm (h : k.Alike visited visited') : k.Alike visited' visited :=
  fun n hn => (h n hn).symm

theorem fertile_append_of_barren (h : ∀ n ∈ stack, k.Barren n) (stack' : List String) :
    k.fertile (stack ++ stack') = k.fertile stack' := by
  unfold fertile
  rw [List.filter_append, List.filter_eq_nil_iff.mpr fun n hn => by simpa using h n hn,
    List.nil_append]

theorem fertile_cons_of_barren (h : k.Barren name) (stack : List String) :
    k.fertile (name :: stack) = k.fertile stack :=
  List.filter_cons_of_neg (by simpa using h)

theorem fertile_append_congr (more : List String) (h : k.fertile stack = k.fertile stack') :
    k.fertile (more ++ stack) = k.fertile (more ++ stack') := by
  unfold fertile at h ⊢
  rw [List.filter_append, List.filter_append, h]

theorem exists_of_fertile_cons (hb : ¬ k.Barren name)
    (h : k.fertile (name :: stack) = k.fertile stack') :
    ∃ before after, stack' = before ++ name :: after ∧ (∀ n ∈ before, k.Barren n) ∧
      k.fertile stack = k.fertile after := by
  unfold fertile at h
  rw [List.filter_cons_of_pos (by simpa using hb)] at h
  obtain ⟨before, after, rfl, hbefore, -, hafter⟩ := List.filter_eq_cons_iff.mp h.symm
  exact ⟨before, after, rfl, fun n hn => by simpa using hbefore n hn, hafter.symm⟩

theorem Barren.of_mentions (h : k.Barren name) {m : String} (hm : k.Mentions name m) :
    k.Barren m :=
  fun n hn => h n (.head hm hn)

end Catalog

open Catalog

theorem mentions_iff_mem (ht : dataTypeAfresh k name = .ok types) {m : String} :
    k.Mentions name m ↔ m ∈ dataTypeNames types := by
  rw [mem_dataTypeNames]
  exact Catalog.Lists.iff_mem ht

theorem dataTypeNames_eq_nil (ht : dataTypeAfresh k name = .ok types)
    (hd : ¬ k.dataTypes.contains name) : dataTypeNames types = [] :=
  List.eq_nil_iff_forall_not_mem.mpr fun _ hm => hd ((mentions_iff_mem ht).mpr hm).contains

namespace Catalog.Stumbles

/-- A walk that knows less stumbles as well, if it knows no more of what it may come to. -/
theorem mono (h : k.Stumbles known visited stack)
    (hk : ∀ n ∈ stack, ∀ m, ReflTransGen k.Mentions n m → known' m → known m) :
    k.Stumbles known' visited stack := by
  induction h with
  | unreadable hn hno h =>
    exact .unreadable hn (fun hknown => hno (hk _ (List.mem_cons_self ..) _ .refl hknown)) h
  | skip hn _ ih => exact .skip hn (ih fun n hn => hk n (List.mem_cons_of_mem _ hn))
  | @follow visited stack name types hn hno ht hl _ ih =>
    have hname := hk name (List.mem_cons_self ..)
    refine .follow hn (fun hknown => hno (hname _ .refl hknown)) ht hl (ih fun n hn m hm => ?_)
    rcases List.mem_append.mp hn with hn | hn
    · have hmentions := (mentions_iff_mem ht).mpr (List.mem_reverse.mp hn)
      exact hname m (.head hmentions hm)
    · exact hk n (List.mem_cons_of_mem _ hn) m hm

theorem not_nil : ¬ k.Stumbles known visited [] := nofun

theorem cons_of_mem (hn : name ∈ visited) :
    k.Stumbles known visited (name :: stack) ↔ k.Stumbles known visited stack := by
  refine ⟨fun h => ?_, .skip hn⟩
  cases h with
  | unreadable hn' => exact absurd hn hn'
  | skip _ h => exact h
  | follow hn' => exact absurd hn hn'

theorem not_cons_of_known (hn : name ∉ visited) (hk : known name) :
    ¬ k.Stumbles known visited (name :: stack) := by
  intro h
  cases h with
  | unreadable _ hk' => exact hk' hk
  | skip hn' => exact hn hn'
  | follow _ hk' => exact hk' hk

theorem not_cons_of_length (hn : name ∉ visited) (ht : dataTypeAfresh k name = .ok types)
    (hl : .length ∈ types) : ¬ k.Stumbles known visited (name :: stack) := by
  intro h
  cases h with
  | unreadable _ _ h => exact h ⟨types, ht⟩
  | skip hn' => exact hn hn'
  | follow _ _ ht' hl' =>
    cases ht.symm.trans ht'
    exact hl' hl

theorem cons_of_ok (hn : name ∉ visited) (hk : ¬ known name)
    (ht : dataTypeAfresh k name = .ok types) (hl : .length ∉ types) :
    k.Stumbles known visited (name :: stack) ↔
      k.Stumbles known (name :: visited) ((dataTypeNames types).reverse ++ stack) := by
  refine ⟨fun h => ?_, .follow hn hk ht hl⟩
  cases h with
  | unreadable _ _ h => exact absurd ⟨types, ht⟩ h
  | skip hn' => exact absurd hn' hn
  | follow _ _ ht' _ h =>
    cases ht.symm.trans ht'
    exact h

variable (hknown : ∀ n, known n → k.ReachesLength n)
include hknown

/-- A walk passes through barren data types and all that they lead to. -/
theorem through {visited before after : List String} (hb : ∀ n ∈ before, k.Barren n)
    (h : ∀ visited', k.Alike visited visited' → k.Stumbles known visited' after) :
    k.Stumbles known visited (before ++ after) := by
  match before, hb with
  | [], _ => exact h visited (.refl k visited)
  | name :: before, hb =>
    have hname := hb name (List.mem_cons_self ..)
    have hbefore : ∀ n ∈ before, k.Barren n := fun n hn => hb n (List.mem_cons_of_mem _ hn)
    by_cases hn : name ∈ visited
    · exact .skip hn (through hbefore h)
    · have hno : ¬ known name := fun hk => hname.not_reachesLength (hknown name hk)
      obtain ⟨⟨types, ht⟩, hlength⟩ := hname name .refl
      rw [Lists.iff_mem ht] at hlength
      have hmore : ∀ n ∈ (dataTypeNames types).reverse, k.Barren n := fun n hn =>
        hname.of_mentions ((mentions_iff_mem ht).mpr (List.mem_reverse.mp hn))
      have hnext : ∀ visited', k.Alike (name :: visited) visited' →
          k.Stumbles known visited' after :=
        fun visited' hv => h visited' (((Alike.refl k visited).cons_left hname).symm.trans hv)
      show k.Stumbles known visited (name :: (before ++ after))
      refine .follow hn hno ht hlength ?_
      -- One that is followed is one less to be seen, any other one less on the stack.
      by_cases hd : k.dataTypes.contains name
      · have hlt := unseen_cons_lt_of_contains hd hn
        rw [← List.append_assoc]
        refine through (fun n hn => ?_) hnext
        rcases List.mem_append.mp hn with hn | hn
        · exact hmore n hn
        · exact hbefore n hn
      · have hle := unseen_cons_le k.dataTypes.keys visited name
        rw [dataTypeNames_eq_nil ht hd, List.reverse_nil, List.nil_append]
        exact through hbefore hnext
termination_by (unseen k.dataTypes.keys visited, before.length)
decreasing_by
  · exact Prod.Lex.right _ (Nat.lt_succ_self _)
  · exact Prod.Lex.left _ _ hlt
  · exact Prod.Lex.right' _ hle (Nat.lt_succ_self _)

/-- What is barren makes no difference. -/
theorem congr (h : k.Stumbles known visited stack) (hv : k.Alike visited visited')
    (hs : k.fertile stack = k.fertile stack') : k.Stumbles known visited' stack' := by
  induction h generalizing visited' stack' with
  | @unreadable visited stack name hn hk h =>
    have hb : ¬ k.Barren name := fun hb => h (hb name .refl).1
    -- On the other stack the data type stands behind barren ones only.
    obtain ⟨before, after, rfl, hbefore, -⟩ := exists_of_fertile_cons hb hs
    refine through hknown hbefore fun visited'' hv' => .unreadable ?_ hk h
    rwa [← hv' name hb, ← hv name hb]
  | @skip visited stack name hn _ ih =>
    by_cases hb : k.Barren name
    · rw [fertile_cons_of_barren hb] at hs
      exact ih hv hs
    · obtain ⟨before, after, rfl, hbefore, hafter⟩ := exists_of_fertile_cons hb hs
      refine through hknown hbefore fun visited'' hv' => .skip ?_ (ih ?_ hafter)
      · rwa [← hv' name hb, ← hv name hb]
      · exact hv.trans hv'
  | @follow visited stack name types hn hk ht hl _ ih =>
    by_cases hb : k.Barren name
    · refine ih (hv.cons_left hb) ?_
      have hmore : ∀ n ∈ (dataTypeNames types).reverse, k.Barren n := fun n hn =>
        hb.of_mentions ((mentions_iff_mem ht).mpr (List.mem_reverse.mp hn))
      rw [fertile_append_of_barren hmore, ← hs, fertile_cons_of_barren hb]
    · obtain ⟨before, after, rfl, hbefore, hafter⟩ := exists_of_fertile_cons hb hs
      refine through hknown hbefore fun visited'' hv' => ?_
      have hv'' := hv.trans hv'
      refine .follow ?_ hk ht hl (ih (hv''.cons name) (fertile_append_congr _ hafter))
      rwa [← hv'' name hb]

/-- A search that skips a barren data type fails where one that goes through it does. -/
theorem cons_of_barren (hb : k.Barren name) :
    k.Stumbles known visited (name :: stack) ↔ k.Stumbles known (name :: visited) stack := by
  have hv : k.Alike (name :: visited) visited := (Alike.refl k visited).cons_left hb
  have hs := fertile_cons_of_barren hb stack
  exact ⟨fun h => h.congr hknown hv.symm hs, fun h => h.congr hknown hv hs.symm⟩

end Catalog.Stumbles

end ValueSyntax
