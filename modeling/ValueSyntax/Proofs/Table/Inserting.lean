import Mathlib.Data.Finset.Dedup
import Mathlib.Data.Finset.Card
import ValueSyntax.Table

namespace ValueSyntax.Table

variable {κ α : Type} [DecidableEq κ]

section Put

variable {k : κ} {a : α} {l : List (κ × α)} {i : Nat}

theorem put_of_notMem (h : k ∉ l.map Prod.fst) : put k a l = l ++ [(k, a)] := by
  induction l with
  | nil => rfl
  | cons e l ih =>
    rw [List.map_cons, List.mem_cons, not_or] at h
    rw [put, if_neg h.1, ih h.2, List.cons_append]

theorem put_of_getElem? (hnodup : (l.map Prod.fst).Nodup) (h : (l.map Prod.fst)[i]? = some k) :
    put k a l = l.set i (k, a) := by
  induction l generalizing i with
  | nil => cases h
  | cons e l ih =>
    obtain ⟨hfst, hnodup⟩ := List.nodup_cons.mp hnodup
    cases i with
    | zero =>
      cases h
      rw [put, if_pos rfl, List.set_cons_zero]
    | succ i =>
      have hmem : k ∈ l.map Prod.fst := List.mem_of_getElem? h
      have hne : k ≠ e.1 := fun heq => hfst (heq ▸ hmem)
      rw [put, if_neg hne, ih hnodup h, List.set_cons_succ]

end Put

section OfList

variable (l : List (κ × α)) (k : κ) (a : α)

theorem ofList_concat : ofList (l ++ [(k, a)]) = (ofList l).insert k a := List.foldl_concat ..

theorem eraseDups_concat (l : List κ) :
    (l ++ [k]).eraseDups = if k ∈ l then l.eraseDups else l.eraseDups ++ [k] := by
  rw [List.eraseDups_append, List.removeAll]
  by_cases h : k ∈ l <;> simp [h, List.eraseDups_cons]

theorem keys_ofList : (ofList l).keys = (l.map Prod.fst).eraseDups := by
  induction l using List.reverseRecOn with
  | nil => rfl
  | append_singleton l e ih =>
    rw [ofList_concat, keys_insert, ih, List.map_append, List.map_singleton, eraseDups_concat]
    simp only [List.mem_eraseDups]

theorem get?_ofList : (ofList l).get? k = l.reverse.lookup k := by
  induction l using List.reverseRecOn with
  | nil => rfl
  | append_singleton l e ih =>
    rw [ofList_concat, get?_insert, ih, List.reverse_concat, lookup_cons]

theorem contains_ofList : (ofList l).contains k ↔ k ∈ l.map Prod.fst := by
  rw [contains_iff_mem_keys, keys_ofList, List.mem_eraseDups]

theorem size_ofList : (ofList l).size = (l.map Prod.fst).toFinset.card := by
  have hsame : (ofList l).keys.toFinset = (l.map Prod.fst).toFinset :=
    Finset.ext fun k => by
      rw [List.mem_toFinset, List.mem_toFinset, keys_ofList, List.mem_eraseDups]
  calc
    (ofList l).size = (ofList l).keys.length := by rw [keys, List.length_map, size]
    _ = (ofList l).keys.toFinset.card :=
      (List.toFinset_card_of_nodup (ofList l).nodup_keys).symm
    _ = (l.map Prod.fst).toFinset.card := by rw [hsame]

end OfList

end ValueSyntax.Table
