import Std.Data.HashMap.Lemmas
import ValueSyntax.Proofs.Table.Inserting

namespace ValueSyntax

theorem getElem?_concat_eq_some_iff {β : Type} {l : List β} {b c : β} {i : Nat} :
    (l ++ [b])[i]? = some c ↔ l[i]? = some c ∨ i = l.length ∧ b = c := by
  rcases Nat.lt_trichotomy i l.length with h | rfl | h
  · rw [List.getElem?_append_left h]
    simp [Nat.ne_of_lt h]
  · simp
  · have hlength : (l ++ [b]).length ≤ i := by
      rw [List.length_append, List.length_singleton]
      exact h
    rw [List.getElem?_eq_none hlength, List.getElem?_eq_none h.le]
    simp [Nat.ne_of_gt h]

/-- Entries, and the place of each key among them. -/
structure IndexedTable (κ α : Type) [BEq κ] [Hashable κ] where
  entries : Array (κ × α)
  places : Std.HashMap κ Nat

namespace IndexedTable

variable {κ α : Type} [DecidableEq κ] [Hashable κ]

def empty : IndexedTable κ α := ⟨#[], ∅⟩

def keys (t : IndexedTable κ α) : List κ := t.entries.toList.map Prod.fst

def size (t : IndexedTable κ α) : Nat := t.entries.size

def contains (t : IndexedTable κ α) (k : κ) : Bool := t.places.contains k

/-- What the entry of a key holds. Nothing comes of a place without an entry. -/
def find? (t : IndexedTable κ α) (k : κ) : Option (Option α) :=
  match t.places[k]? with
  | some i => (t.entries[i]?).map fun e => some e.2
  | none => some none

/-- A key that has a place keeps it, and what its entry held is replaced. A new key goes to the
end. -/
def exchange? (t : IndexedTable κ α) (k : κ) (a : α) : Option (Option α × IndexedTable κ α) :=
  match t.places[k]? with
  | some i =>
    if h : i < t.entries.size then
      let e := t.entries[i]
      some (some e.2, { t with entries := t.entries.set i (e.1, a) h })
    else none
  | none => some (none, ⟨t.entries.push (k, a), t.places.insert k t.entries.size⟩)

/-- What inserting some entries one after the other comes to. -/
def ofList? (l : List (κ × α)) : Option (IndexedTable κ α) :=
  l.foldlM (fun t (k, a) => (t.exchange? k a).map Prod.snd) empty

/-- The index leads to the entries of a table. -/
structure Indexes (x : IndexedTable κ α) (t : Table κ α) : Prop where
  entries_eq : x.entries.toList = t.entries
  place_iff : ∀ (k : κ) (i : Nat), x.places[k]? = some i ↔ t.keys[i]? = some k

section Indexes

variable {x : IndexedTable κ α} {t : Table κ α} {k : κ} {i : Nat}

theorem Indexes.keys_eq (h : x.Indexes t) : x.keys = t.keys := congrArg _ h.entries_eq

theorem Indexes.entry_of_place (h : x.Indexes t) (hi : x.places[k]? = some i) :
    ∃ a, x.entries[i]? = some (k, a) ∧ t.get? k = some a := by
  have hkey := (h.place_iff k i).mp hi
  rw [Table.keys, List.getElem?_map, Option.map_eq_some_iff] at hkey
  obtain ⟨⟨k, a⟩, he, rfl⟩ := hkey
  refine ⟨a, ?_, Table.get?_of_mem (List.mem_of_getElem? he)⟩
  rw [← Array.getElem?_toList, h.entries_eq, he]

theorem Indexes.notMem_of_no_place (h : x.Indexes t) (hnone : x.places[k]? = none) :
    k ∉ t.keys := by
  intro hmem
  obtain ⟨i, hi⟩ := List.mem_iff_getElem?.mp hmem
  rw [(h.place_iff k i).mpr hi] at hnone
  cases hnone

theorem Indexes.get?_eq_none (h : x.Indexes t) (hnone : x.places[k]? = none) :
    t.get? k = none := by
  rw [← Option.not_isSome_iff_eq_none]
  exact fun hsome => h.notMem_of_no_place hnone ((t.contains_iff_mem_keys k).mp hsome)

theorem indexes_empty : (empty : IndexedTable κ α).Indexes .empty where
  entries_eq := rfl
  place_iff k i := by simp [empty, Table.keys, Table.empty]

/-- An insertion answers with what it replaces, and the index stays in step. -/
theorem Indexes.exchange (h : x.Indexes t) (k : κ) (a : α) :
    ∃ x', x.exchange? k a = some (t.get? k, x') ∧ x'.Indexes (t.insert k a) := by
  cases hplace : x.places[k]? with
  | some i =>
    obtain ⟨b, hentry, hget⟩ := h.entry_of_place hplace
    obtain ⟨hi, hentry⟩ := Array.getElem?_eq_some_iff.mp hentry
    have hkey := (h.place_iff k i).mp hplace
    -- An entry is replaced in its place, so the index stays as it is.
    refine ⟨{ x with entries := x.entries.set i (k, a) hi }, ?_, ?_, fun j m => ?_⟩
    · rw [exchange?, hplace, hget]
      dsimp only
      rw [dif_pos hi, hentry]
    · rw [Array.toList_set, h.entries_eq]
      exact (Table.put_of_getElem? t.nodup_keys hkey).symm
    · rw [Table.keys_insert, if_pos (List.mem_of_getElem? hkey)]
      exact h.place_iff j m
  | none =>
    have hnew := h.notMem_of_no_place hplace
    have hsize : x.entries.size = t.keys.length := by
      rw [← h.keys_eq, keys, List.length_map, Array.length_toList]
    -- A new entry goes behind all others.
    refine ⟨⟨x.entries.push (k, a), x.places.insert k x.entries.size⟩, ?_, ?_, fun j m => ?_⟩
    · rw [exchange?, hplace, h.get?_eq_none hplace]
    · rw [Array.toList_push, h.entries_eq]
      exact (Table.put_of_notMem hnew).symm
    · rw [Table.keys_insert, if_neg hnew, getElem?_concat_eq_some_iff, ← h.place_iff,
        Std.HashMap.getElem?_insert, hsize]
      by_cases hj : k = j
      · subst hj
        simp [hplace, eq_comm]
      · simp [hj]

theorem Indexes.find? (h : x.Indexes t) (k : κ) : x.find? k = some (t.get? k) := by
  cases hplace : x.places[k]? with
  | some i =>
    obtain ⟨a, hentry, hget⟩ := h.entry_of_place hplace
    rw [IndexedTable.find?, hplace, hget]
    dsimp only
    rw [hentry, Option.map_some]
  | none =>
    rw [IndexedTable.find?, hplace, h.get?_eq_none hplace]

theorem Indexes.contains_eq (h : x.Indexes t) (k : κ) : x.contains k = t.contains k := by
  rw [contains, ← Std.HashMap.isSome_getElem?_eq_contains, Table.contains]
  cases hplace : x.places[k]? with
  | some i =>
    obtain ⟨a, -, hget⟩ := h.entry_of_place hplace
    rw [hget]
    rfl
  | none =>
    rw [h.get?_eq_none hplace]
    rfl

theorem Indexes.lt_size (h : x.Indexes t) (hi : x.places[k]? = some i) : i < x.size := by
  obtain ⟨a, hentry, -⟩ := h.entry_of_place hi
  exact (Array.getElem?_eq_some_iff.mp hentry).1

theorem Indexes.size_eq (h : x.Indexes t) : x.size = t.size := by
  rw [size, ← Array.length_toList, h.entries_eq, Table.size]

theorem ofList?_concat (l : List (κ × α)) (k : κ) (a : α) :
    ofList? (l ++ [(k, a)]) = (ofList? l).bind fun x => (x.exchange? k a).map Prod.snd := by
  rw [ofList?, List.foldlM_append]
  simp [ofList?]

theorem exists_indexes_ofList (l : List (κ × α)) :
    ∃ x, ofList? l = some x ∧ x.Indexes (.ofList l) := by
  induction l using List.reverseRecOn with
  | nil => exact ⟨empty, rfl, indexes_empty⟩
  | append_singleton l e ih =>
    obtain ⟨x, hx, h⟩ := ih
    obtain ⟨x', hx', h'⟩ := h.exchange e.1 e.2
    refine ⟨x', ?_, Table.ofList_concat l e.1 e.2 ▸ h'⟩
    rw [ofList?_concat, hx, Option.bind_some, hx', Option.map_some]

end Indexes

/-- What a table is after some insertions: index and entries are in step, the keys stand in the
order in which they first came, and each has what was last inserted for it. Searching the entries
one by one finds the same. -/
structure After (x : IndexedTable κ α) (inserts : List (κ × α)) : Prop where
  place_iff : ∀ (k : κ) (i : Nat), x.places[k]? = some i ↔ x.keys[i]? = some k
  place_lt : ∀ (k : κ) (i : Nat), x.places[k]? = some i → i < x.size
  nodup_keys : x.keys.Nodup
  keys_eq : x.keys = (inserts.map Prod.fst).eraseDups
  find?_eq : ∀ k, x.find? k = some (inserts.reverse.lookup k)
  contains_iff : ∀ k, x.contains k ↔ k ∈ inserts.map Prod.fst
  size_eq : x.size = (inserts.map Prod.fst).toFinset.card
  replaced_eq : ∀ k a, (x.exchange? k a).map Prod.fst = some (inserts.reverse.lookup k)
  entries_eq : x.entries.toList = (Table.ofList inserts).entries
  find?_eq_get? : ∀ k, x.find? k = some ((Table.ofList inserts).get? k)

theorem Indexes.after {x : IndexedTable κ α} {inserts : List (κ × α)}
    (h : x.Indexes (.ofList inserts)) : x.After inserts where
  place_iff k i := by rw [h.place_iff, h.keys_eq]
  place_lt k i hi := h.lt_size hi
  nodup_keys := h.keys_eq ▸ Table.nodup_keys _
  keys_eq := by rw [h.keys_eq, Table.keys_ofList]
  find?_eq k := by rw [h.find?, Table.get?_ofList]
  contains_iff k := by rw [h.contains_eq, Table.contains_ofList]
  size_eq := by rw [h.size_eq, Table.size_ofList]
  replaced_eq k a := by
    obtain ⟨x', hx', -⟩ := h.exchange k a
    rw [hx', Option.map_some, Table.get?_ofList]
  entries_eq := h.entries_eq
  find?_eq_get? := h.find?

end IndexedTable

end ValueSyntax
