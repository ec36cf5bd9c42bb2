import ValueSyntax.Resolve.Combine

namespace ValueSyntax

@[simp] theorem length_maskedIndices_le (n mask : Nat) : (maskedIndices n mask).length ≤ n := by
  simpa [maskedIndices] using List.length_filter_le mask.testBit (List.range n)

theorem maskedIndices_twoTo {n i : Nat} (h : i < n) : maskedIndices n (Number.twoTo i) = [i] := by
  have hb : Nat.testBit (Number.twoTo i) = fun j => decide (j = i) := by
    funext j
    show Nat.testBit (2 ^ i) j = _
    rw [Nat.testBit_two_pow]
    exact decide_eq_decide.mpr eq_comm
  unfold maskedIndices
  rw [hb, List.filter_eq, List.nodup_range.count]
  simp [h]

theorem maskedIndices_twoTo_sub_one (n : Nat) :
    maskedIndices n (Number.twoTo n - 1) = List.range n := by
  apply List.filter_eq_self.mpr
  intro i hi
  show Nat.testBit (2 ^ n - 1) i = true
  simpa using hi

theorem mem_nonEmptySubsets {n : Nat} {indices : List Nat} :
    indices ∈ nonEmptySubsets n ↔ ∃ i < subsetCount n, maskedIndices n (i + 1) = indices := by
  simp [nonEmptySubsets, firstSubsets]

theorem maskedIndices_mem {n mask : Nat} (hn : n < 64) (hpos : 0 < mask)
    (hlt : mask < Number.twoTo n) : maskedIndices n mask ∈ nonEmptySubsets n := by
  apply mem_nonEmptySubsets.mpr
  refine ⟨mask - 1, ?_, ?_⟩
  · rw [subsetCount, if_pos hn]
    omega
  · rw [Nat.sub_add_cancel hpos]

theorem singleton_mem_nonEmptySubsets {n i : Nat} (hn : n < 64) (h : i < n) :
    [i] ∈ nonEmptySubsets n := by
  rw [← maskedIndices_twoTo h]
  exact maskedIndices_mem hn (Number.twoTo_pos i) (Nat.pow_lt_pow_right (by decide) h)

theorem range_mem_nonEmptySubsets {n : Nat} (hn : n < 64) (h : 0 < n) :
    List.range n ∈ nonEmptySubsets n := by
  have hpow : 1 < Number.twoTo n := Nat.one_lt_two_pow (Nat.ne_of_gt h)
  rw [← maskedIndices_twoTo_sub_one]
  exact maskedIndices_mem hn (by omega) (by omega)

theorem lt_of_mem_nonEmptySubsets {n : Nat} {indices : List Nat} (h : indices ∈ nonEmptySubsets n) :
    ∀ i ∈ indices, i < n := by
  obtain ⟨mask, _, rfl⟩ := mem_nonEmptySubsets.mp h
  exact fun i hi => List.mem_range.mp (List.mem_filter.mp hi).1

section Arrangements

variable {β : Type} {n : Nat} {visit : β → Vector Nat n → β} (good : Vector Nat n → Prop)
  (before after : β → Prop)

/-- A property that the first visit establishes and every further one keeps. -/
theorem after_visitArrangements (hswap : ∀ v i j (hi : i < n) (hj : j < n), good v →
      good (v.swap i j))
    (hvisit : ∀ v b, good v → before b → after (visit b v)) (hle : ∀ b, after b → before b)
    (k : Nat) (h : k ≤ n) (v : Vector Nat n) (b : β) (hv : good v) (hb : before b) :
    good (visitArrangements visit k h (v, b)).1 ∧ after (visitArrangements visit k h (v, b)).2 := by
  induction k generalizing v b with
  | zero =>
    rw [visitArrangements]
    exact ⟨hv, hvisit v b hv hb⟩
  | succ k ih =>
    rw [visitArrangements]
    -- Each further round starts from a swap and does the visits of the smaller prefix again.
    have rounds : ∀ m (f : (i : Nat) → i < m → Vector Nat n × β → Vector Nat n × β),
        (∀ i hi s, good s.1 ∧ after s.2 → good (f i hi s).1 ∧ after (f i hi s).2) →
        ∀ s, good s.1 ∧ after s.2 → good (m.fold f s).1 ∧ after (m.fold f s).2 := by
      intro m
      induction m with
      | zero => intro f _ s hs; exact hs
      | succ m ihm =>
        intro f hf s hs
        rw [Nat.fold_succ]
        exact hf m _ _ (ihm _ (fun i hi => hf i _) s hs)
    apply rounds _ _ _ _ (ih _ v b hv hb)
    intro c hc s hs
    exact ih _ _ _ (hswap _ _ _ _ _ hs.1) (hle _ hs.2)

end Arrangements

theorem lt_of_mem_swap {n : Nat} {v : Vector Nat n} {i j : Nat} (hi : i < n) (hj : j < n)
    (h : ∀ m ∈ v.toList, m < n) : ∀ m ∈ (v.swap i j).toList, m < n := by
  intro m hm
  rw [Vector.mem_toList_iff] at hm
  exact h m (Vector.mem_toList_iff.mpr ((Vector.swap_perm hi hj).mem_iff.mp hm))

theorem lt_of_mem_permutations {n : Nat} {order : List Nat} (h : order ∈ permutations n) :
    ∀ i ∈ order, i < n := by
  let good (v : Vector Nat n) : Prop := ∀ m ∈ v.toList, m < n
  let bounded (l : List (List Nat)) : Prop := ∀ order ∈ l, ∀ i ∈ order, i < n
  have hvisited := after_visitArrangements good bounded bounded
    (fun _ _ _ hi hj hv => lt_of_mem_swap hi hj hv)
    (fun v l hv hl => List.forall_mem_cons.mpr ⟨hv, hl⟩) (fun _ hl => hl) n (Nat.le_refl n)
    (.ofFn fun i => i.val) [] (by simp [good]) nofun
  exact hvisited.2 order (List.mem_reverse.mp h)

namespace Shapes

open Ascending

@[simp] theorem mem_any {x : Shape} : x ∈ any ↔ x = .anyString := mem_singleton

theorem mem_inSequence {parts : List Shapes} {x : Shape} :
    x ∈ inSequence parts ↔
      (∃ part, parts = [part] ∧ x ∈ part) ∨ (x = .anyString ∧ 2 ≤ parts.length) := by
  match parts with
  | [] => simp [inSequence]
  | [part] => simp [inSequence]
  | _ :: _ :: _ => simp [inSequence]

theorem inSequence_of_two_le {parts : List Shapes} (h : 2 ≤ parts.length) :
    inSequence parts = any := by
  match parts with
  | [] | [_] => simp at h
  | _ :: _ :: _ => rfl

theorem length_pick_le (parts : List Shapes) (indices : List Nat) :
    (pick parts indices).length ≤ indices.length :=
  List.length_filterMap_le _ _

theorem mem_of_mem_pick {parts : List Shapes} {indices : List Nat} {part : Shapes}
    (h : part ∈ pick parts indices) : part ∈ parts := by
  obtain ⟨i, _, hi⟩ := List.mem_filterMap.mp h
  exact List.mem_of_getElem? hi

theorem length_pick {parts : List Shapes} {indices : List Nat}
    (h : ∀ i ∈ indices, i < parts.length) : (pick parts indices).length = indices.length := by
  induction indices with
  | nil => rfl
  | cons i indices ih =>
    have hi := h i (List.mem_cons_self ..)
    have ih := ih fun j hj => h j (List.mem_cons_of_mem _ hj)
    simpa [pick, List.filterMap_cons, List.getElem?_eq_getElem hi] using ih

theorem mem_foldl_inSequence {l : List (List Nat)} {parts : List Shapes} {s : Shapes} {x : Shape} :
    x ∈ l.foldl (fun s indices => s ∪ inSequence (pick parts indices)) s ↔
      x ∈ s ∨ ∃ indices ∈ l, x ∈ inSequence (pick parts indices) := by
  induction l generalizing s with
  | nil => simp
  | cons indices l ih => simp [ih, or_assoc]

/-- Any number of operands in any order: each by itself, and any string if there are two. -/
theorem mem_inAnyOrder {parts : List Shapes} (h : parts.length < 64) {x : Shape} :
    x ∈ inAnyOrder parts ↔
      (∃ part ∈ parts, x ∈ part) ∨ (x = .anyString ∧ 2 ≤ parts.length) := by
  rw [inAnyOrder, mem_foldl_inSequence]
  constructor
  · rintro (hx | ⟨indices, hi, hx⟩)
    · exact absurd hx (not_mem_empty x)
    rcases mem_inSequence.mp hx with ⟨part, hp, hx⟩ | ⟨rfl, hlen⟩
    · exact Or.inl ⟨part, mem_of_mem_pick (hp ▸ List.mem_singleton_self part), hx⟩
    · obtain ⟨i, _, rfl⟩ := mem_nonEmptySubsets.mp hi
      have hpick := length_pick_le parts (maskedIndices parts.length (i + 1))
      exact Or.inr ⟨rfl, Nat.le_trans hlen (Nat.le_trans hpick (length_maskedIndices_le _ _))⟩
  · rintro (⟨part, hp, hx⟩ | ⟨rfl, hlen⟩)
    · obtain ⟨i, hi, rfl⟩ := List.mem_iff_getElem.mp hp
      refine Or.inr ⟨[i], singleton_mem_nonEmptySubsets h hi, ?_⟩
      have hpick : pick parts [i] = [parts[i]] := by simp [pick, hi]
      rw [hpick]
      exact hx
    · refine Or.inr ⟨_, range_mem_nonEmptySubsets h (by omega), ?_⟩
      have hpick : (pick parts (List.range parts.length)).length = parts.length := by
        rw [length_pick (by simp), List.length_range]
      rw [inSequence_of_two_le (by rw [hpick]; exact hlen)]
      exact mem_any.mpr rfl

theorem allInAnyOrder_singleton (part : Shapes) {x : Shape} :
    x ∈ allInAnyOrder [part] ↔ x ∈ part := by
  have h : allInAnyOrder [part] = empty ∪ part := rfl
  simp [h]

/-- All of several operands, whatever they are, are just a string. -/
theorem mem_allInAnyOrder_of_two_le {parts : List Shapes} (h : 2 ≤ parts.length) {x : Shape} :
    x ∈ allInAnyOrder parts ↔ x = .anyString := by
  -- Only a string is ever added, and the first visit adds it.
  let good (v : Vector Nat parts.length) : Prop := ∀ i ∈ v.toList, i < parts.length
  let before (s : Shapes) : Prop := ∀ y, y ∈ s → y = Shape.anyString
  let after (s : Shapes) : Prop := ∀ y, y ∈ s ↔ y = Shape.anyString
  have hvisit : ∀ (v : Vector Nat parts.length) (s : Shapes), good v → before s →
      after (s ∪ inSequence (pick parts v.toList)) := by
    intro v s hv hs y
    have hlen : 2 ≤ (pick parts v.toList).length := by rw [length_pick hv]; simpa using h
    rw [inSequence_of_two_le hlen, mem_union, mem_any]
    exact ⟨fun hy => hy.elim (hs y) id, Or.inr⟩
  have hfirst : good (.ofFn fun i => i.val) := by simp [good]
  have hempty : before empty := by simp [before]
  exact (after_visitArrangements good before after
    (fun _ _ _ hi hj hv => lt_of_mem_swap hi hj hv) hvisit (fun s hs y hy => (hs y).mp hy) _
    (Nat.le_refl _) _ _ hfirst hempty).2 x

end Shapes

end ValueSyntax
