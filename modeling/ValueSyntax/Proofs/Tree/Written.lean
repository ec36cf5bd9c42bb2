import ValueSyntax.Proofs.Tree.Leaves
import ValueSyntax.Proofs.Tree.Recognition

namespace ValueSyntax

open Text Token

namespace Multiplier

/-- The counts that can be read: they fit 32 bits, and no maximum is below the minimum. -/
structure Readable (m : Multiplier) : Prop where
  min_lt : m.min < Number.twoTo 32
  max_lt : ∀ n ∈ m.max, n < Number.twoTo 32
  le : ∀ n ∈ m.max, m.min ≤ n

inductive Spelling (afterGroup : Bool) : Multiplier → List Piece → Prop
  | question : Spelling afterGroup ⟨0, some 1, .space⟩ [.token .question ['?']]
  | star : Spelling afterGroup ⟨0, none, .space⟩ [.token .star ['*']]
  | plus : Spelling afterGroup ⟨1, none, .space⟩ [.token .plus ['+']]
  | exclamation (h : afterGroup) :
      Spelling afterGroup ⟨1, some 1, .space⟩ [.token .exclamation ['!']]
  | counts {min : Nat} {max : Option Nat} :
      Spelling afterGroup ⟨min, max, .space⟩ (rangePieces min max)
  | hash : Spelling afterGroup ⟨1, none, .comma⟩ [.token .hash ['#']]
  | hashCounts {min : Nat} {max : Option Nat} :
      Spelling afterGroup ⟨min, max, .comma⟩ (.token .hash ['#'] :: rangePieces min max)

theorem spelling (m : Multiplier) (afterGroup : Bool) :
    Spelling afterGroup m (m.pieces afterGroup) := by
  obtain ⟨min, max, separator⟩ := m
  have hspace : ∀ min max, Spelling afterGroup ⟨min, max, .space⟩
      (if min = 1 ∧ max = some 1 ∧ afterGroup then [.token .exclamation ['!']]
        else rangePieces min max) := by
    intro min max
    split
    · next h =>
      obtain ⟨rfl, rfl, hgroup⟩ := h
      exact .exclamation hgroup
    · exact .counts
  cases separator with
  | space =>
    match min, max with
    | 0, none => exact .star
    | 0, some 0 => exact hspace 0 (some 0)
    | 0, some 1 => exact .question
    | 0, some (n + 2) => exact hspace 0 (some (n + 2))
    | 1, none => exact .plus
    | 1, some n => exact hspace 1 (some n)
    | n + 2, max => exact hspace (n + 2) max
  | comma =>
    match min, max with
    | 0, max => exact .hashCounts
    | 1, none => exact .hash
    | 1, some n => exact .hashCounts
    | n + 2, max => exact .hashCounts

theorem formed_count (n : Nat) : Formed .number (countChars n) := by
  refine .number ⟨[], countChars n, [], [], by simp, Or.inl rfl, Nat.toDigits_ne_nil, ?_,
    Or.inl rfl, Or.inr (by simp)⟩
  exact fun c hc => Number.isDigit_of_mem_toDigits hc

theorem spaced_count {n : Nat} {kind : Kind} {ps : List Piece} {c : Char} {rest : List Char}
    (hkind : ([c], kind) ∈ marks) (hc : sticks c = false)
    (h : Spaced (.token kind [c] :: ps) rest) :
    Spaced (.token .number (countChars n) :: .token kind [c] :: ps) rest := by
  refine ⟨formed_count n, fun _ => ?_, h⟩
  rw [textOf_cons, Piece.chars, (mark_ne_nil _ hkind).2]
  exact stops_cons.mpr hc

theorem spaced_rangePieces (min : Nat) (max : Option Nat) (rest : List Char) :
    Spaced (rangePieces min max) rest := by
  have hclose : Spaced [.token .closeCurly ['\x7d']] rest :=
    spaced_mark (by decide) rfl (spaced_nil rest)
  apply spaced_mark (by decide) rfl
  cases max with
  | none =>
    exact spaced_count (by decide) (by decide) (spaced_mark (by decide) rfl hclose)
  | some max =>
    by_cases h : max = min
    · simp only [h, if_true]
      exact spaced_count (by decide) (by decide) hclose
    · simp only [h, if_false]
      have hcount := spaced_count (n := max) (by decide) (by decide) hclose
      exact spaced_count (by decide) (by decide) (spaced_mark (by decide) rfl hcount)

/-- Multipliers can be told from whatever follows them. -/
theorem spaced_pieces (m : Multiplier) (afterGroup : Bool) (rest : List Char) :
    Spaced (m.pieces afterGroup) rest := by
  have h := m.spelling afterGroup
  generalize m.pieces afterGroup = ps at h
  cases h with
  | counts => exact spaced_rangePieces _ _ rest
  | hashCounts => exact spaced_mark (by decide) rfl (spaced_rangePieces _ _ rest)
  | _ => exact spaced_mark (by decide) rfl (spaced_nil rest)

theorem stops_pieces (m : Multiplier) (afterGroup : Bool) (rest : List Char) :
    Stops sticks (textOf (m.pieces afterGroup) ++ rest) := by
  have h := m.spelling afterGroup
  generalize m.pieces afterGroup = ps at h
  cases h <;> exact stops_cons.mpr (by decide)

end Multiplier

theorem Connective.spaced_pieces (c : Connective) (rest : List Char) : Spaced c.pieces rest := by
  cases c with
  | oneOf => exact ⟨.mark (by decide), fun _ => stops_cons.mpr (by decide), trivial⟩
  | anyOrder => exact spaced_mark (by decide) rfl trivial
  | allRequired => exact spaced_mark (by decide) rfl trivial
  | juxtaposition => trivial

theorem Connective.stops_pieces (c : Connective) (rest : List Char) :
    Stops sticks (textOf c.pieces ++ rest) := by
  cases c <;> exact stops_cons.mpr (by decide)

theorem Connective.spaced_intercalate (c : Connective) {pss : List (List Piece)} {rest : List Char}
    (h : ∀ ps ∈ pss, ∀ rest, Stops sticks rest → Spaced ps rest) (hrest : Stops sticks rest) :
    Spaced (c.pieces.intercalate pss) rest := by
  induction pss with
  | nil => trivial
  | cons ps pss ih =>
    have hps := h ps (List.mem_cons_self ..)
    cases pss with
    | nil =>
      rw [List.intercalate_singleton]
      exact hps rest hrest
    | cons qs pss =>
      rw [List.intercalate_cons_cons, List.append_assoc]
      refine spaced_append.mpr ⟨hps _ ?_, spaced_append.mpr ⟨c.spaced_pieces _, ?_⟩⟩
      · rw [textOf_append, List.append_assoc]
        exact c.stops_pieces _
      · exact ih fun ps hps => h ps (List.mem_cons_of_mem _ hps)

namespace Tree

/-- The tree of a phrase, as far as the phrase can be told from the tree. -/
inductive Written : Phrase → Tree → Prop
  | leaf {t : Tree} {kind : Kind} {value : List Char} (h : IsLeaf t kind value) : Written .term t
  | group {inner : Tree} (bracketed : Bool) (h : Written (.level .oneOf) inner) :
      Written .term (group inner bracketed)
  | emptyFunction {name : String} (hname : IsName name.toList) :
      Written .term (function name noArguments)
  | function {name : String} {inner : Tree} (hname : IsName name.toList)
      (h : Written (.level .oneOf) inner) : Written .term (function name inner)
  | once {t : Tree} (h : Written .term t) : Written .repeated t
  | multiplied {inner : Tree} {m : Multiplier} (h : Written .repeated inner) (hm : m.Readable) :
      Written .repeated (multiplied inner m)
  | single {c : Connective} {t : Tree} (h : Written (.operandOf c) t) : Written (.level c) t
  | joined {c : Connective} {operands : List Tree} (hlen : 2 ≤ operands.length)
      (h : ∀ t ∈ operands, Written (.operandOf c) t) : Written (.level c) (joined c operands)

theorem readable_of_counts {ts : List Token} {min : Nat} {max : Option Nat} (h : Counts ts min max)
    (separator : Separator) : Multiplier.Readable ⟨min, max, separator⟩ := by
  cases h with
  | exactly _ _ hn _ =>
    have hlt := Number.count?_lt hn
    exact ⟨hlt, by simpa using hlt, by simp⟩
  | atLeast _ _ hn _ _ => exact ⟨Number.count?_lt hn, by simp, by simp⟩
  | between _ _ hn _ _ hm hle _ =>
    exact ⟨Number.count?_lt hn, by simpa using Number.count?_lt hm, by simpa using hle⟩

theorem Multiplies.readable {operand : Tree} {ts : List Token} {m : Multiplier}
    (h : Multiplies operand ts m) : m.Readable := by
  cases h with
  | counts h => exact readable_of_counts h _
  | hashCounts _ h => exact readable_of_counts h _
  | question _ => exact ⟨by decide, by decide, by decide⟩
  | exclamation _ _ => exact ⟨by decide, by decide, by decide⟩
  | _ => exact ⟨by decide, by simp, by simp⟩

theorem Joins.mem {c : Connective} {parts : List (List Token)} {joinedTs : List Token}
    (h : Joins c parts joinedTs) {part : List Token} (hpart : part ∈ parts) {tok : Token}
    (htok : tok ∈ part) : tok ∈ joinedTs := by
  induction h with
  | last ts =>
    obtain rfl := List.mem_singleton.mp hpart
    exact htok
  | marked _ _ _ ih =>
    rcases List.mem_cons.mp hpart with rfl | hpart
    · exact List.mem_append_left _ htok
    · exact List.mem_append_right _ (List.mem_cons_of_mem _ (ih hpart))
  | adjacent _ _ ih =>
    rcases List.mem_cons.mp hpart with rfl | hpart
    · exact List.mem_append_left _ htok
    · exact List.mem_append_right _ (ih hpart)

theorem isName_of_function {tok : Token} (hkind : tok.kind = .function)
    (h : Formed tok.kind tok.value.toList) : IsName tok.value.toList := by
  rw [hkind] at h
  cases h with
  | function h => exact h
  | mark h =>
    have hmarks : ∀ m ∈ marks, m.2 ≠ .function := by decide
    exact absurd rfl (hmarks _ h)

theorem Derives.written {phrase : Phrase} {ts : List Token} {t : Tree} (h : Derives phrase ts t)
    (hformed : ∀ tok ∈ ts, Formed tok.kind tok.value.toList) : Written phrase t := by
  induction h with
  | leaf h =>
    obtain ⟨_, _, hleaf⟩ := isLeaf_of_ofLeaf? (hformed _ (List.mem_singleton_self _)) h
    exact .leaf hleaf
  | brackets _ _ _ ih =>
    exact .group true (ih fun tok htok => hformed tok (by simp [htok]))
  | parentheses _ _ _ ih =>
    exact .group false (ih fun tok htok => hformed tok (by simp [htok]))
  | emptyFunction hf _ =>
    exact .emptyFunction (isName_of_function hf (hformed _ (List.mem_cons_self ..)))
  | function hf _ _ ih =>
    exact .function (isName_of_function hf (hformed _ (List.mem_cons_self ..)))
      (ih fun tok htok => hformed tok (by simp [htok]))
  | once _ ih => exact .once (ih hformed)
  | multiplied _ hm _ ih =>
    exact .multiplied (ih fun tok htok => hformed tok (List.mem_append_left _ htok)) hm.readable
  | single _ ih => exact .single (ih hformed)
  | @joined c parts ts hlen _ hts ih =>
    refine .joined (by simpa using hlen) fun t ht => ?_
    obtain ⟨p, hp, rfl⟩ := List.mem_map.mp ht
    exact ih p hp fun tok htok => hformed tok (hts.mem (List.mem_map_of_mem hp) htok)

/-- Only the parentheses of a function may be empty. -/
theorem Written.ne_noArguments {phrase : Phrase} {t : Tree} (h : Written phrase t) :
    t ≠ noArguments := by
  intro ht
  induction h with
  | leaf h =>
    subst ht
    exact absurd h.pieces (List.cons_ne_nil _ _).symm
  | joined hlen _ _ =>
    cases ht
    exact absurd hlen (by decide)
  | once _ ih => exact ih ht
  | single _ ih => exact ih ht
  | _ => cases ht

/-- Canonical texts can be told from what follows them, if it does not go on with their last
token. -/
theorem Written.spaced {phrase : Phrase} {t : Tree} (h : Written phrase t) {rest : List Char}
    (hrest : Stops sticks rest) : Spaced t.pieces rest := by
  -- Before a closing mark stands a blank, and no token goes on with a blank.
  have hblank : ∀ cs : List Char, Stops sticks (' ' :: cs) := fun _ => stops_cons.mpr (by decide)
  induction h generalizing rest with
  | leaf h =>
    rw [h.pieces]
    exact ⟨h.formed, fun _ => hrest, trivial⟩
  | group bracketed _ ih =>
    cases bracketed with
    | true =>
      refine spaced_mark (by decide) rfl (spaced_append.mpr ⟨ih (hblank _), ?_⟩)
      exact spaced_mark (by decide) rfl trivial
    | false =>
      refine spaced_mark (by decide) rfl (spaced_append.mpr ⟨ih (hblank _), ?_⟩)
      exact spaced_mark (by decide) rfl trivial
  | emptyFunction hname =>
    refine ⟨.function hname, fun hopen => absurd hopen (by decide), ?_⟩
    exact spaced_mark (by decide) rfl trivial
  | function hname h ih =>
    rw [pieces_function h.ne_noArguments]
    refine ⟨.function hname, fun hopen => absurd hopen (by decide), ?_⟩
    exact spaced_append.mpr ⟨ih (hblank _), spaced_mark (by decide) rfl trivial⟩
  | once _ ih => exact ih hrest
  | @multiplied inner m _ _ ih =>
    rw [pieces]
    exact spaced_append.mpr ⟨ih (m.stops_pieces _ rest), m.spaced_pieces _ rest⟩
  | single _ ih => exact ih hrest
  | @joined c operands _ _ ih =>
    rw [pieces, piecesEach_eq_map]
    refine c.spaced_intercalate (fun ps hps rest hrest => ?_) hrest
    obtain ⟨t, ht, rfl⟩ := List.mem_map.mp hps
    exact ih t ht hrest

end Tree

end ValueSyntax
