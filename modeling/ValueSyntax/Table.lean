namespace ValueSyntax

/-- A map that remembers the order in which its keys were first inserted. -/
structure Table (κ : Type) (α : Type) where
  entries : List (κ × α)
  nodup_keys : (entries.map Prod.fst).Nodup

namespace Table

variable {κ α : Type}

def empty : Table κ α := ⟨[], List.nodup_nil⟩

def keys (t : Table κ α) : List κ := t.entries.map Prod.fst

def size (t : Table κ α) : Nat := t.entries.length

def isEmpty (t : Table κ α) : Bool := t.entries.isEmpty

variable [DecidableEq κ]

def get? (t : Table κ α) (k : κ) : Option α := t.entries.lookup k

def contains (t : Table κ α) (k : κ) : Bool := (t.get? k).isSome

/-- A key that is present keeps its place; a new one goes to the end. -/
def put (k : κ) (a : α) : List (κ × α) → List (κ × α)
  | [] => [(k, a)]
  | (k', a') :: rest => if k = k' then (k, a) :: rest else (k', a') :: put k a rest

theorem map_fst_put (k : κ) (a : α) (l : List (κ × α)) :
    (put k a l).map Prod.fst =
      if k ∈ l.map Prod.fst then l.map Prod.fst else l.map Prod.fst ++ [k] := by
  induction l with
  | nil => simp [put]
  | cons e rest ih =>
    obtain ⟨k', a'⟩ := e
    by_cases h : k = k'
    · simp [put, h]
    · by_cases hm : k ∈ rest.map Prod.fst <;> simp_all [put]

theorem lookup_cons (j k : κ) (a : α) (l : List (κ × α)) :
    ((k, a) :: l).lookup j = if j = k then some a else l.lookup j := by
  by_cases h : j = k <;> simp [List.lookup_cons, h, beq_eq_false_iff_ne.mpr]

theorem lookup_put (k : κ) (a : α) (l : List (κ × α)) (j : κ) :
    (put k a l).lookup j = if j = k then some a else l.lookup j := by
  induction l with
  | nil => simp [put, lookup_cons]
  | cons e rest ih =>
    obtain ⟨k', a'⟩ := e
    by_cases h : k = k'
    · by_cases hj : j = k <;> simp_all [put, lookup_cons]
    · by_cases hj : j = k'
      · have : ¬ j = k := fun hk => h (hk.symm.trans hj)
        simp_all [put]
      · simp_all [put, lookup_cons]

theorem nodup_put {k : κ} {a : α} {l : List (κ × α)} (h : (l.map Prod.fst).Nodup) :
    ((put k a l).map Prod.fst).Nodup := by
  rw [map_fst_put]
  split
  · exact h
  · next hk =>
    refine List.nodup_append.mpr ⟨h, by simp, fun x hx y hy e => hk ?_⟩
    exact List.mem_singleton.mp hy ▸ e ▸ hx

def insert (t : Table κ α) (k : κ) (a : α) : Table κ α :=
  ⟨put k a t.entries, nodup_put t.nodup_keys⟩

/-- The table after an insertion, and the entry that the insertion replaced. -/
def exchange (t : Table κ α) (k : κ) (a : α) : Option α × Table κ α :=
  (t.get? k, t.insert k a)

def ofList (l : List (κ × α)) : Table κ α := l.foldl (fun t (k, a) => t.insert k a) empty

theorem get?_insert (t : Table κ α) (k : κ) (a : α) (j : κ) :
    (t.insert k a).get? j = if j = k then some a else t.get? j :=
  lookup_put k a t.entries j

theorem keys_insert (t : Table κ α) (k : κ) (a : α) :
    (t.insert k a).keys = if k ∈ t.keys then t.keys else t.keys ++ [k] :=
  map_fst_put k a t.entries

theorem contains_iff_mem_keys (t : Table κ α) (k : κ) : t.contains k ↔ k ∈ t.keys := by
  unfold contains get? keys
  generalize t.entries = l
  induction l with
  | nil => simp
  | cons e rest ih =>
    obtain ⟨k', a⟩ := e
    by_cases h : k = k' <;> simp_all [lookup_cons]

theorem get?_of_mem {t : Table κ α} {e : κ × α} (h : e ∈ t.entries) : t.get? e.1 = some e.2 := by
  have hnodup := t.nodup_keys
  unfold get?
  generalize t.entries = l at h hnodup
  induction l with
  | nil => cases h
  | cons e' l ih =>
    obtain ⟨hfst, hnodup⟩ := List.nodup_cons.mp hnodup
    rw [lookup_cons]
    rcases List.mem_cons.mp h with rfl | h
    · rw [if_pos rfl]
    · have hne : e.1 ≠ e'.1 := by
        intro he
        rw [← he] at hfst
        exact hfst (List.mem_map_of_mem h)
      rw [if_neg hne]
      exact ih h hnodup

theorem mem_of_get? {t : Table κ α} {k : κ} {a : α} (h : t.get? k = some a) :
    (k, a) ∈ t.entries := by
  unfold get? at h
  generalize t.entries = l at h
  induction l with
  | nil => cases h
  | cons e l ih =>
    rw [lookup_cons] at h
    split at h
    · next he =>
      cases h
      rw [he]
      exact List.mem_cons_self ..
    · exact List.mem_cons_of_mem _ (ih h)

end Table

end ValueSyntax
