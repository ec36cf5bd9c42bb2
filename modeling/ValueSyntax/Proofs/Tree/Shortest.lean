import ValueSyntax.Proofs.Tree.Misprints
import ValueSyntax.Proofs.Tree.Proper

namespace ValueSyntax

open Token

namespace Multiplier

def kinds (m : Multiplier) (afterGroup : Bool) : List Kind :=
  (keysOf (m.pieces afterGroup)).map Prod.fst

end Multiplier

namespace Tree

def kinds (t : Tree) : List Kind := (keysOf t.pieces).map Prod.fst

theorem kinds_brackets (inner : Tree) :
    kinds (group inner true) = .openBracket :: (inner.kinds ++ [.closeBracket]) := by
  simp [kinds, keysOf_brackets]

theorem kinds_parentheses (inner : Tree) :
    kinds (group inner false) = .openParen :: (inner.kinds ++ [.closeParen]) := by
  simp [kinds, keysOf_parentheses]

theorem kinds_function {name : String} {arguments : Tree} (h : arguments ≠ noArguments) :
    kinds (function name arguments) = .function :: (arguments.kinds ++ [.closeParen]) := by
  simp [kinds, keysOf_function h]

theorem kinds_multiplied (inner : Tree) (m : Multiplier) :
    kinds (multiplied inner m) = inner.kinds ++ m.kinds inner.isGroup := by
  simp [kinds, pieces, Multiplier.kinds]

def isAtom : Tree → Bool
  | keyword _ | symbol _ _ | reference _ _ _ | number _ _ => true
  | _ => false

theorem isAtom_of_ofLeaf? {tok : Token} {t : Tree} (h : ofLeaf? tok = some (.ok t)) : t.isAtom := by
  unfold ofLeaf? at h
  split at h
  · cases h
    rfl
  · cases h
    rfl
  · cases h
    rfl
  · cases h
    rfl
  · simp only [ofReference, Option.some.injEq] at h
    grind [isAtom]
  · simp only [ofNumber, Option.some.injEq] at h
    grind [isAtom]
  · cases h

theorem length_kinds_of_isAtom {t : Tree} (h : t.isAtom) : t.kinds.length = 1 := by
  match t with
  | keyword _ => rfl
  | symbol _ true => rfl
  | symbol _ false => rfl
  | reference _ _ _ => rfl
  | number _ _ => rfl

theorem printable_of_isAtom {t : Tree} (h : t.isAtom) : t.Printable := by
  intro s hs
  have hst : s = t := by
    match t with
    | keyword _ | symbol _ _ | reference _ _ _ | number _ _ => exact List.mem_singleton.mp hs
  match t with
  | keyword _ | symbol _ _ | reference _ _ _ | number _ _ => rw [hst, misprinted] <;> simp

end Tree

namespace Multiplier

open ValueSyntax.Tree

theorem length_rangePieces_le (min : Nat) (max : Option Nat) :
    (keysOf (rangePieces min max)).length ≤ 5 := by
  cases max with
  | none => simp [rangePieces]
  | some max => by_cases h : max = min <;> simp [rangePieces, h]

theorem length_rangePieces_of_counts {ms : List Token} {min : Nat} {max : Option Nat}
    (h : Counts ms min max) : (keysOf (rangePieces min max)).length ≤ ms.length := by
  cases h with
  | exactly => simp [rangePieces]
  | atLeast => simp [rangePieces]
  | between => exact length_rangePieces_le _ _

theorem length_kinds_le (m : Multiplier) (afterGroup : Bool) :
    (m.kinds afterGroup).length ≤ (keysOf (rangePieces m.min m.max)).length +
      if m.separator = .comma then 1 else 0 := by
  have h := m.spelling afterGroup
  unfold kinds
  rw [List.length_map]
  generalize m.pieces afterGroup = ps at h
  cases h <;> simp [rangePieces]

theorem length_kinds_le_of_multiplies {operand : Tree} {ms : List Token} {m : Multiplier}
    (h : Multiplies operand ms m) : (m.kinds operand.isGroup).length ≤ ms.length := by
  cases h with
  | counts h =>
    exact Nat.le_trans (length_kinds_le _ _) (length_rangePieces_of_counts h)
  | hashCounts _ h =>
    have := length_rangePieces_of_counts h
    exact Nat.le_trans (length_kinds_le _ _) (Nat.succ_le_succ this)
  | exclamation _ hb =>
    match operand with
    | group _ true => exact Nat.le_refl 1
  | _ => exact Nat.le_refl 1

end Multiplier

namespace Tree

theorem Derives.ne_noArguments {phrase : Phrase} {ts : List Token} {t : Tree}
    (h : Derives phrase ts t) : t ≠ noArguments := by
  intro ht
  have hproper := h.proper
  rw [ht] at hproper
  cases hproper with
  | joined hlen _ => exact absurd hlen (by decide)

theorem kinds_joined_cons (c : Connective) (t u : Tree) (operands : List Tree) :
    Tree.kinds (joined c (t :: u :: operands)) =
      t.kinds ++ ((keysOf c.pieces).map Prod.fst ++ Tree.kinds (joined c (u :: operands))) := by
  simp [Tree.kinds, pieces, piecesEach_eq_map]

theorem Joins.exists_mark {c : Connective} {part part' : List Token} {parts : List (List Token)}
    {ts : List Token} (h : Joins c (part :: part' :: parts) ts) :
    ∃ ms joinedTs, ts = part ++ (ms ++ joinedTs) ∧
      ms.map Token.kind = (keysOf c.pieces).map Prod.fst ∧ Joins c (part' :: parts) joinedTs := by
  cases h with
  | @marked kind mark _ joinedTs _ hk hm h =>
    refine ⟨[mark], joinedTs, rfl, ?_, h⟩
    simp [Connective.keysOf_pieces_of_some hk, hm]
  | @adjacent _ joinedTs _ hk h =>
    exact ⟨[], joinedTs, rfl, by simp [Connective.keysOf_pieces_of_none hk], h⟩

/-- Operands that are no longer than their tokens are joined to no more than their tokens; if they
are joined to the same kinds, each of them is the same. -/
theorem Joins.kinds {c : Connective} {parts : List (List Token × Tree)} {ts : List Token}
    (h : Joins c (parts.map Prod.fst) ts)
    (hle : ∀ p ∈ parts, p.2.kinds.length ≤ p.1.length) :
    (Tree.kinds (joined c (parts.map Prod.snd))).length ≤ ts.length ∧
      (ts.map Token.kind = Tree.kinds (joined c (parts.map Prod.snd)) →
        ∀ p ∈ parts, p.1.map Token.kind = p.2.kinds) := by
  induction parts generalizing ts with
  | nil => cases h
  | cons p parts ih =>
    obtain ⟨hp, hparts⟩ := List.forall_mem_cons.mp hle
    cases parts with
    | nil =>
      obtain rfl := Joins.of_singleton h
      have hkinds : Tree.kinds (joined c [p.2]) = p.2.kinds := by
        simp [Tree.kinds, pieces, piecesEach]
      rw [List.map_singleton, hkinds]
      exact ⟨hp, fun h => by simpa using h⟩
    | cons q parts =>
      obtain ⟨ms, joinedTs, rfl, hms, hjoins⟩ := h.exists_mark
      obtain ⟨hlen, hkinds⟩ := ih hjoins hparts
      have hmsLen := congrArg List.length hms
      rw [List.length_map, List.length_map] at hmsLen
      rw [List.map_cons, List.map_cons, kinds_joined_cons]
      rw [List.map_cons] at hlen hkinds
      refine ⟨?_, fun h => ?_⟩
      · simp only [List.length_append, List.length_map]
        omega
      · -- No part is longer than its tokens and the sums agree, so each part agrees.
        have htotal := congrArg List.length h
        simp only [List.length_map, List.length_append] at htotal
        rw [List.map_append, List.map_append] at h
        have hfirst := List.append_inj h (by rw [List.length_map]; omega)
        have hsecond := List.append_inj hfirst.2 (by rw [List.length_map, List.length_map, hmsLen])
        exact List.forall_mem_cons.mpr ⟨hfirst.1, hkinds hsecond.2⟩

/-- The canonical text has as few tokens as any text of the tree. -/
theorem Derives.length_kinds_le {phrase : Phrase} {ts : List Token} {t : Tree}
    (h : Derives phrase ts t) : t.kinds.length ≤ ts.length := by
  induction h with
  | leaf h => rw [length_kinds_of_isAtom (isAtom_of_ofLeaf? h), List.length_singleton]
  | brackets _ _ _ ih =>
    rw [kinds_brackets]
    simpa using ih
  | parentheses _ _ _ ih =>
    rw [kinds_parentheses]
    simpa using ih
  | emptyFunction _ _ => exact Nat.le_refl 2
  | function _ h _ ih =>
    rw [kinds_function h.ne_noArguments]
    simpa using ih
  | once _ ih => exact ih
  | multiplied _ hm _ ih =>
    have := Multiplier.length_kinds_le_of_multiplies hm
    rw [kinds_multiplied, List.length_append, List.length_append]
    omega
  | single _ ih => exact ih
  | joined _ _ hts ih => exact (hts.kinds ih).1

theorem endsInHash_of_kinds {ts : List Token} {ks : List Kind}
    (h : ts.map Token.kind = ks ++ [.hash]) : EndsInHash ts := by
  obtain ⟨us, vs, rfl, _, hvs⟩ := List.map_eq_append_iff.mp h
  obtain ⟨t, rfl, ht⟩ := List.map_eq_singleton_iff.mp hvs
  exact (endsInHash_append (List.cons_ne_nil _ _)).mpr (endsInHash_singleton.mpr ht)

theorem isBracketedGroup_of_multiplies {operand : Tree} {ms : List Token}
    (h : Multiplies operand ms ⟨1, some 1, .space⟩) (hms : ms.map Token.kind = [.exclamation]) :
    operand.isBracketedGroup := by
  obtain ⟨t, rfl, ht⟩ := List.map_eq_singleton_iff.mp hms
  cases h with
  | exclamation _ hb => exact hb
  | counts h => cases h

theorem not_misprinted_of_kinds {inner : Tree} {m : Multiplier} {ts ms : List Token}
    (hm : Multiplies inner ms m) (hash : EndsInHash ts → startsWith .openCurly ms = false)
    (hts : ts.map Token.kind = inner.kinds) (hms : ms.map Token.kind = m.kinds inner.isGroup) :
    misprinted (multiplied inner m) = false := by
  match inner with
  | multiplied operand m' =>
    simp only [misprinted, Bool.and_eq_false_iff, decide_eq_false_iff_not]
    by_cases hm' : m' = ⟨1, none, .comma⟩
    -- Behind a lone mark no braces can be read, so they are not written either.
    · apply Or.inr
      intro hbrace
      subst hm'
      rw [kinds_multiplied] at hts
      have hms : ms.map Token.kind = (keysOf (m.pieces false)).map Prod.fst := hms
      have hstarts := hash (endsInHash_of_kinds hts)
      rw [← Multiplier.startsWith_openCurly_iff hms] at hbrace
      rw [hstarts] at hbrace
      cases hbrace
    · exact Or.inl hm'
  | group operand false =>
    simp only [misprinted, decide_eq_false_iff_not]
    rintro rfl
    cases isBracketedGroup_of_multiplies hm hms
  | group _ true | keyword _ | symbol _ _ | reference _ _ _ | number _ _ | function _ _
  | joined _ _ => rfl

theorem kinds_of_enclosed {o c : Token} {ts : List Token} {opening closing : Kind} {ks : List Kind}
    (h : (o :: (ts ++ [c])).map Token.kind = opening :: (ks ++ [closing])) :
    ts.map Token.kind = ks := by
  rw [List.map_cons, List.map_append] at h
  exact List.append_inj_left' (List.cons.inj h).2 rfl

theorem Derives.printable {phrase : Phrase} {ts : List Token} {t : Tree}
    (h : Derives phrase ts t) (hkinds : ts.map Token.kind = t.kinds) : t.Printable := by
  induction h with
  | leaf h => exact printable_of_isAtom (isAtom_of_ofLeaf? h)
  | brackets _ _ _ ih =>
    rw [kinds_brackets] at hkinds
    rw [printable_group]
    exact ih (kinds_of_enclosed hkinds)
  | parentheses _ _ _ ih =>
    rw [kinds_parentheses] at hkinds
    rw [printable_group]
    exact ih (kinds_of_enclosed hkinds)
  | emptyFunction _ _ =>
    rw [printable_function, noArguments, printable_joined]
    simp
  | function _ h _ ih =>
    rw [kinds_function h.ne_noArguments] at hkinds
    rw [printable_function]
    exact ih (kinds_of_enclosed hkinds)
  | once _ ih => exact ih hkinds
  | multiplied h hm hash ih =>
    -- As above: the operand and the multiplier can only agree each with its own tokens.
    have hle := h.length_kinds_le
    have hmle := Multiplier.length_kinds_le_of_multiplies hm
    have htotal := congrArg List.length hkinds
    rw [kinds_multiplied, List.length_append, List.length_map, List.length_append] at htotal
    rw [kinds_multiplied, List.map_append] at hkinds
    obtain ⟨hts, hms⟩ := List.append_inj hkinds (by rw [List.length_map]; omega)
    rw [printable_multiplied]
    exact ⟨not_misprinted_of_kinds hm hash hts hms, ih hts⟩
  | single _ ih => exact ih hkinds
  | @joined c parts ts _ h hts ih =>
    have hparts := (hts.kinds fun p hp => (h p hp).length_kinds_le).2 hkinds
    rw [printable_joined]
    intro t ht
    obtain ⟨p, hp, rfl⟩ := List.mem_map.mp ht
    exact ih p hp (hparts p hp)

end Tree

end ValueSyntax
