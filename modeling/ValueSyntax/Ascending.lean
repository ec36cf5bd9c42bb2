namespace ValueSyntax

/-- A finite set, kept as a list in strictly ascending order: every set has one list. -/
structure Ascending (α : Type) [Ord α] where
  toList : List α
  ascending : toList.Pairwise fun a b => compare a b = .lt

namespace Ascending

variable {α : Type} [Ord α]

theorem ext {s t : Ascending α} (h : s.toList = t.toList) : s = t := by
  cases s; cases t; cases h; rfl

instance [DecidableEq α] : DecidableEq (Ascending α) := fun _ _ =>
  decidable_of_iff _ ⟨ext, congrArg toList⟩

def empty : Ascending α := ⟨[], List.Pairwise.nil⟩

def singleton (a : α) : Ascending α := ⟨[a], List.pairwise_singleton _ a⟩

def isEmpty (s : Ascending α) : Bool := s.toList.isEmpty

instance : Membership α (Ascending α) := ⟨fun s a => a ∈ s.toList⟩

theorem mem_def {s : Ascending α} {a : α} : a ∈ s ↔ a ∈ s.toList := Iff.rfl

@[simp] theorem not_mem_empty (a : α) : a ∉ (empty : Ascending α) := by simp [mem_def, empty]

@[simp] theorem mem_singleton {a b : α} : a ∈ singleton b ↔ a = b := by simp [mem_def, singleton]

/-- Puts an element where the order wants it, unless it is there already. -/
def place (a : α) : List α → List α
  | [] => [a]
  | b :: rest =>
    match compare a b with
    | .lt => a :: b :: rest
    | .eq => b :: rest
    | .gt => b :: place a rest

variable [Std.LawfulEqOrd α]

theorem mem_place {a x : α} {l : List α} : x ∈ place a l ↔ x = a ∨ x ∈ l := by
  induction l with
  | nil => simp [place]
  | cons b rest ih =>
    unfold place
    split
    · simp
    · next h => cases Std.LawfulEqOrd.eq_of_compare h; simp
    · simp only [List.mem_cons, ih]
      grind

variable [Std.TransOrd α]

theorem ascending_place {a : α} {l : List α} (h : l.Pairwise fun a b => compare a b = .lt) :
    (place a l).Pairwise fun a b => compare a b = .lt := by
  induction l with
  | nil => simp [place]
  | cons b rest ih =>
    have ⟨hb, hr⟩ := List.pairwise_cons.mp h
    unfold place
    split
    · next hab =>
      refine List.pairwise_cons.mpr ⟨fun c hc => ?_, h⟩
      rcases List.mem_cons.mp hc with rfl | hc
      · exact hab
      · exact Std.TransCmp.lt_trans hab (hb c hc)
    · exact h
    · next hab =>
      refine List.pairwise_cons.mpr ⟨fun c hc => ?_, ih hr⟩
      rcases mem_place.mp hc with rfl | hc
      · exact Std.OrientedCmp.gt_iff_lt.mp hab
      · exact hb c hc

def insert (s : Ascending α) (a : α) : Ascending α :=
  ⟨place a s.toList, ascending_place s.ascending⟩

def union (s t : Ascending α) : Ascending α := t.toList.foldl insert s

instance : Union (Ascending α) := ⟨union⟩

def ofList (l : List α) : Ascending α := l.foldl insert empty

def unions (l : List (Ascending α)) : Ascending α := l.foldl union empty

theorem mem_insert {s : Ascending α} {a x : α} : x ∈ s.insert a ↔ x = a ∨ x ∈ s := mem_place

theorem mem_foldl_insert {s : Ascending α} {l : List α} {x : α} :
    x ∈ l.foldl insert s ↔ x ∈ s ∨ x ∈ l := by
  induction l generalizing s with
  | nil => simp
  | cons a l ih => simp only [List.foldl_cons, ih, mem_insert, List.mem_cons]; grind

@[simp] theorem mem_union {s t : Ascending α} {x : α} : x ∈ s ∪ t ↔ x ∈ s ∨ x ∈ t :=
  mem_foldl_insert

@[simp] theorem mem_ofList {l : List α} {x : α} : x ∈ ofList l ↔ x ∈ l := by
  simp [ofList, mem_foldl_insert]

theorem mem_foldl_union {s : Ascending α} {l : List (Ascending α)} {x : α} :
    x ∈ l.foldl union s ↔ x ∈ s ∨ ∃ t ∈ l, x ∈ t := by
  induction l generalizing s with
  | nil => simp
  | cons t l ih =>
    rw [List.foldl_cons, ih, show s.union t = s ∪ t from rfl, mem_union]
    simp [or_assoc]

@[simp] theorem mem_unions {l : List (Ascending α)} {x : α} :
    x ∈ unions l ↔ ∃ t ∈ l, x ∈ t := by
  simp [unions, mem_foldl_union]

theorem ext_mem {s t : Ascending α} (h : ∀ x, x ∈ s ↔ x ∈ t) : s = t := by
  have irrefl : ∀ {a : α}, compare a a ≠ .lt := by simp [Std.ReflCmp.compare_self]
  suffices ∀ l m : List α, l.Pairwise (compare · · = .lt) → m.Pairwise (compare · · = .lt) →
      (∀ x, x ∈ l ↔ x ∈ m) → l = m from ext (this _ _ s.ascending t.ascending h)
  intro l
  induction l with
  | nil =>
    intro m _ _ h
    cases m with
    | nil => rfl
    | cons b m => simpa using (h b).mpr
  | cons a l ih =>
    intro m hl hm h
    cases m with
    | nil => simpa using (h a).mp
    | cons b m =>
      have ⟨ha, hl'⟩ := List.pairwise_cons.mp hl
      have ⟨hb, hm'⟩ := List.pairwise_cons.mp hm
      -- Each list has its smallest element in front, so the two heads are the same.
      have hab : a = b := by
        rcases List.mem_cons.mp ((h a).mp (by simp)) with hab | hab
        · exact hab
        · rcases List.mem_cons.mp ((h b).mpr (by simp)) with hba | hba
          · exact hba.symm
          · exact absurd (Std.TransCmp.lt_trans (ha b hba) (hb a hab)) irrefl
      subst hab
      rw [ih m hl' hm']
      intro x
      constructor
      · intro hx
        rcases List.mem_cons.mp ((h x).mp (List.mem_cons_of_mem _ hx)) with rfl | hx'
        · exact absurd (ha x hx) irrefl
        · exact hx'
      · intro hx
        rcases List.mem_cons.mp ((h x).mpr (List.mem_cons_of_mem _ hx)) with rfl | hx'
        · exact absurd (hb x hx) irrefl
        · exact hx'

@[simp] theorem ofList_toList (s : Ascending α) : ofList s.toList = s :=
  ext_mem fun _ => mem_ofList

end Ascending

end ValueSyntax
