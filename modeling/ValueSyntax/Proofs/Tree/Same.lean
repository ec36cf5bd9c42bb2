import ValueSyntax.Proofs.Tree.Shortest

namespace ValueSyntax.Tree

open Token

/-- Equal trees have equal nodes, up to the bounds of a reference. -/
inductive SameNode : Tree → Tree → Prop
  | keyword (text : String) : SameNode (keyword text) (keyword text)
  | symbol (text : String) (quoted : Bool) : SameNode (symbol text quoted) (symbol text quoted)
  | reference {name : String} {property : Bool} (range range' : Option Range) :
      SameNode (reference name range property) (reference name range' property)
  | number (text : String) (unit : Option String) : SameNode (number text unit) (number text unit)
  | function {name : String} {a b : Tree} (h : same a b) :
      SameNode (function name a) (function name b)
  | joined {c : Connective} {ts us : List Tree} (h : sameEach ts us) :
      SameNode (joined c ts) (joined c us)
  | group {a b : Tree} {bracketed : Bool} (h : same a b) :
      SameNode (group a bracketed) (group b bracketed)
  | multiplied {a b : Tree} {m : Multiplier} (h : same a b) :
      SameNode (multiplied a m) (multiplied b m)

theorem SameNode.of_same {t u : Tree} (h : t.same u) : SameNode t u := by
  rw [same.eq_def] at h
  split at h
  · simp only [beq_iff_eq] at h
    subst h
    exact .keyword _
  · simp only [Bool.and_eq_true, beq_iff_eq] at h
    obtain ⟨rfl, rfl⟩ := h
    exact .symbol _ _
  · simp only [Bool.and_eq_true, beq_iff_eq] at h
    obtain ⟨⟨rfl, rfl⟩, _⟩ := h
    exact .reference _ _
  · simp only [Bool.and_eq_true, beq_iff_eq] at h
    obtain ⟨rfl, rfl⟩ := h
    exact .number _ _
  · simp only [Bool.and_eq_true, beq_iff_eq] at h
    obtain ⟨rfl, h⟩ := h
    exact .function h
  · simp only [Bool.and_eq_true, beq_iff_eq] at h
    obtain ⟨rfl, h⟩ := h
    exact .joined h
  · simp only [Bool.and_eq_true, beq_iff_eq] at h
    obtain ⟨rfl, h⟩ := h
    exact .group h
  · simp only [Bool.and_eq_true, beq_iff_eq] at h
    obtain ⟨rfl, h⟩ := h
    exact .multiplied h
  · cases h

theorem SameNode.isGroup {t u : Tree} (h : SameNode t u) : t.isGroup = u.isGroup := by
  cases h <;> rfl

theorem SameNode.eq_noArguments {t u : Tree} (h : SameNode t u) :
    t = noArguments ↔ u = noArguments := by
  cases h with
  | @joined c ts us h =>
    have hnil : ts = [] ↔ us = [] := by
      cases ts <;> cases us <;> simp_all [sameEach]
    simp only [noArguments, joined.injEq, hnil]
  | _ => simp [noArguments]

theorem SameNode.misprinted {t u : Tree} {m : Multiplier} (h : SameNode t u) :
    Tree.misprinted (.multiplied t m) = Tree.misprinted (.multiplied u m) := by
  cases h with
  | @group _ _ bracketed => cases bracketed <;> rfl
  | _ => rfl

theorem kinds_joined (c : Connective) (operands : List Tree) :
    kinds (joined c operands) =
      ((keysOf c.pieces).map Prod.fst).intercalate (operands.map kinds) := by
  induction operands with
  | nil => rfl
  | cons t operands ih =>
    cases operands with
    | nil => simp [kinds, pieces, piecesEach]
    | cons u operands =>
      rw [kinds_joined_cons, ih, List.map_cons, List.map_cons, List.map_cons,
        List.intercalate_cons_cons, List.append_assoc]

mutual

theorem kinds_of_same {t u : Tree} (h : t.same u) : t.kinds = u.kinds := by
  have hnode := SameNode.of_same h
  match t with
  | keyword _ | symbol _ _ | number _ _ | reference _ _ _ =>
    cases hnode
    rfl
  | function name arguments =>
    cases hnode with
    | @function _ _ arguments' hsame =>
      have hnone := (SameNode.of_same hsame).eq_noArguments
      by_cases harg : arguments = noArguments
      · rw [harg, hnone.mp harg]
      · rw [kinds_function harg, kinds_function fun harg' => harg (hnone.mpr harg'),
          kinds_of_same hsame]
  | joined c operands =>
    cases hnode with
    | joined hsame => rw [kinds_joined, kinds_joined, map_kinds_of_sameEach hsame]
  | group inner bracketed =>
    cases hnode with
    | group hsame =>
      cases bracketed with
      | true => rw [kinds_brackets, kinds_brackets, kinds_of_same hsame]
      | false => rw [kinds_parentheses, kinds_parentheses, kinds_of_same hsame]
  | multiplied inner m =>
    cases hnode with
    | multiplied hsame =>
      rw [kinds_multiplied, kinds_multiplied, kinds_of_same hsame,
        (SameNode.of_same hsame).isGroup]

theorem map_kinds_of_sameEach {ts us : List Tree} (h : sameEach ts us) :
    ts.map kinds = us.map kinds := by
  match ts, us with
  | [], [] => rfl
  | t :: ts, u :: us =>
    simp only [sameEach, Bool.and_eq_true] at h
    rw [List.map_cons, List.map_cons, kinds_of_same h.1, map_kinds_of_sameEach h.2]

end

mutual

theorem printable_of_same {t u : Tree} (h : t.same u) (hu : u.Printable) : t.Printable := by
  have hnode := SameNode.of_same h
  match t with
  | keyword _ | symbol _ _ | number _ _ | reference _ _ _ => exact printable_of_isAtom rfl
  | function name arguments =>
    cases hnode with
    | function hsame =>
      rw [printable_function] at hu ⊢
      exact printable_of_same hsame hu
  | joined c operands =>
    cases hnode with
    | joined hsame =>
      rw [printable_joined] at hu ⊢
      exact printable_of_sameEach hsame hu
  | group inner bracketed =>
    cases hnode with
    | group hsame =>
      rw [printable_group] at hu ⊢
      exact printable_of_same hsame hu
  | multiplied inner m =>
    cases hnode with
    | multiplied hsame =>
      rw [printable_multiplied] at hu ⊢
      exact ⟨(SameNode.of_same hsame).misprinted.trans hu.1, printable_of_same hsame hu.2⟩

theorem printable_of_sameEach {ts us : List Tree} (h : sameEach ts us)
    (hus : ∀ u ∈ us, u.Printable) : ∀ t ∈ ts, t.Printable := by
  match ts, us with
  | [], [] => simp
  | t :: ts, u :: us =>
    simp only [sameEach, Bool.and_eq_true] at h
    rw [List.forall_mem_cons] at hus ⊢
    exact ⟨printable_of_same h.1 hus.1, printable_of_sameEach h.2 hus.2⟩

end

def hasNan : Tree → Bool
  | reference _ (some r) _ => r.min = some .nan || r.max = some .nan
  | _ => false

theorem same_self_of_range {r : Range} (hmin : r.min ≠ some .nan) (hmax : r.max ≠ some .nan) :
    r.same r := by
  obtain ⟨min, max⟩ := r
  refine (Bool.and_eq_true _ _).mpr ⟨?_, ?_⟩
  · cases min with
    | none => rfl
    | some x => exact Binary64.same_self fun hx => hmin (congrArg some hx)
  · cases max with
    | none => rfl
    | some x => exact Binary64.same_self fun hx => hmax (congrArg some hx)

mutual

theorem same_self {t : Tree} (h : ∀ s ∈ t.subtrees, s.hasNan = false) : t.same t := by
  match t with
  | keyword _ | symbol _ _ | number _ _ => simp [same]
  | reference _ none _ => simp [same]
  | reference name (some r) property =>
    have hnan := h _ (List.mem_singleton_self _)
    simp only [hasNan, Bool.or_eq_false_iff, decide_eq_false_iff_not] at hnan
    simp [same, same_self_of_range hnan.1 hnan.2]
  | function name arguments =>
    rw [subtrees, List.forall_mem_cons] at h
    simp [same, same_self h.2]
  | joined c operands =>
    rw [subtrees, List.forall_mem_cons] at h
    simp [same, sameEach_self h.2]
  | group inner bracketed =>
    rw [subtrees, List.forall_mem_cons] at h
    simp [same, same_self h.2]
  | multiplied inner m =>
    rw [subtrees, List.forall_mem_cons] at h
    simp [same, same_self h.2]

theorem sameEach_self {ts : List Tree} (h : ∀ s ∈ subtreesEach ts, s.hasNan = false) :
    sameEach ts ts := by
  match ts with
  | [] => rfl
  | t :: ts =>
    rw [subtreesEach, List.forall_mem_append] at h
    simp [sameEach, same_self h.1, sameEach_self h.2]

end

end ValueSyntax.Tree
