import ValueSyntax.Proofs.Tree.Written

namespace ValueSyntax

open Token

namespace Tree

mutual

def subtrees : Tree → List Tree
  | function name arguments => function name arguments :: subtrees arguments
  | joined c operands => joined c operands :: subtreesEach operands
  | group inner bracketed => group inner bracketed :: subtrees inner
  | multiplied inner m => multiplied inner m :: subtrees inner
  | t => [t]

def subtreesEach : List Tree → List Tree
  | [] => []
  | t :: ts => subtrees t ++ subtreesEach ts

end

/-- Whether the canonical text of the tree itself is the text of another tree, or of none. -/
def misprinted : Tree → Bool
  | multiplied (multiplied _ m) m' =>
    m = ⟨1, none, .comma⟩ && (m'.chars false).head? = some '\x7b'
  | multiplied (group _ false) m => m = ⟨1, some 1, .space⟩
  | _ => false

/-- No tree inside is misprinted. -/
def Printable (t : Tree) : Prop := ∀ s ∈ t.subtrees, s.misprinted = false

theorem subtreesEach_eq_flatMap (ts : List Tree) : subtreesEach ts = ts.flatMap subtrees := by
  induction ts with
  | nil => rfl
  | cons t ts ih => rw [subtreesEach, List.flatMap_cons, ih]

theorem printable_function {name : String} {arguments : Tree} :
    Printable (function name arguments) ↔ Printable arguments := by
  simp [Printable, subtrees, misprinted]

theorem printable_group {inner : Tree} {bracketed : Bool} :
    Printable (group inner bracketed) ↔ Printable inner := by
  simp [Printable, subtrees, misprinted]

theorem printable_joined {c : Connective} {operands : List Tree} :
    Printable (joined c operands) ↔ ∀ t ∈ operands, Printable t := by
  simp only [Printable, subtrees, subtreesEach_eq_flatMap, List.forall_mem_cons, List.mem_flatMap]
  simp [misprinted]
  grind

theorem printable_multiplied {inner : Tree} {m : Multiplier} :
    Printable (multiplied inner m) ↔ misprinted (multiplied inner m) = false ∧ Printable inner := by
  simp [Printable, subtrees]

theorem isBracketedGroup_of_not_misprinted {inner : Tree} {m : Multiplier}
    (h : misprinted (multiplied inner m) = false) (hm : m = ⟨1, some 1, .space⟩)
    (hgroup : inner.isGroup) : inner.isBracketedGroup := by
  subst hm
  match inner with
  | group _ true => rfl
  | group _ false => cases h

theorem exists_of_map_key {ts : List Token} {kind : Kind} {value : List Char}
    {keys : List (Kind × List Char)} (h : ts.map key = (kind, value) :: keys) :
    ∃ t us, ts = t :: us ∧ t.kind = kind ∧ t.value.toList = value ∧ us.map key = keys := by
  obtain ⟨t, us, rfl, ht, hus⟩ := List.map_eq_cons_iff.mp h
  exact ⟨t, us, rfl, congrArg Prod.fst ht, congrArg Prod.snd ht, hus⟩

theorem exists_of_map_key_singleton {ts : List Token} {kind : Kind} {value : List Char}
    (h : ts.map key = [(kind, value)]) : ∃ t, ts = [t] ∧ t.kind = kind := by
  obtain ⟨t, rfl, ht⟩ := List.map_eq_singleton_iff.mp h
  exact ⟨t, rfl, congrArg Prod.fst ht⟩

theorem map_kind_of_map_key {ts : List Token} {keys : List (Kind × List Char)}
    (h : ts.map key = keys) : ts.map Token.kind = keys.map Prod.fst := by
  rw [← h, List.map_map]
  rfl

end Tree

namespace Multiplier

open ValueSyntax.Tree

theorem counts_of_rangePieces {min : Nat} {max : Option Nat} {separator : Separator}
    {ms : List Token} (hm : Readable ⟨min, max, separator⟩)
    (hms : ms.map key = keysOf (rangePieces min max)) : Counts ms min max := by
  have hmin := Number.count32?_toDigits hm.min_lt
  cases max with
  | none =>
    obtain ⟨o, _, rfl, ho, _, hms⟩ := exists_of_map_key hms
    obtain ⟨a, _, rfl, ha, hn, hms⟩ := exists_of_map_key hms
    obtain ⟨s, _, rfl, hs, _, hms⟩ := exists_of_map_key hms
    obtain ⟨c, _, rfl, hc, _, hms⟩ := exists_of_map_key hms
    rw [List.map_eq_nil_iff.mp hms]
    exact .atLeast ho ha (hn ▸ hmin) hs hc
  | some max =>
    have hmax := Number.count32?_toDigits (hm.max_lt max rfl)
    obtain ⟨o, _, rfl, ho, _, hms⟩ := exists_of_map_key hms
    obtain ⟨a, _, rfl, ha, hn, hms⟩ := exists_of_map_key hms
    by_cases h : max = min
    · simp only [h, if_true] at hms
      obtain ⟨c, _, rfl, hc, _, hms⟩ := exists_of_map_key hms
      rw [List.map_eq_nil_iff.mp hms, h]
      exact .exactly ho ha (hn ▸ hmin) hc
    · simp only [h, if_false] at hms
      obtain ⟨s, _, rfl, hs, _, hms⟩ := exists_of_map_key hms
      obtain ⟨b, _, rfl, hb, hn', hms⟩ := exists_of_map_key hms
      obtain ⟨c, _, rfl, hc, _, hms⟩ := exists_of_map_key hms
      rw [List.map_eq_nil_iff.mp hms]
      exact .between ho ha (hn ▸ hmin) hs hb (hn' ▸ hmax) (hm.le max rfl) hc

theorem multiplies_of_pieces {operand : Tree} {m : Multiplier} {ms : List Token} (hm : m.Readable)
    (hms : ms.map key = keysOf (m.pieces operand.isGroup))
    (hbrackets : m = ⟨1, some 1, .space⟩ → operand.isGroup → operand.isBracketedGroup) :
    Multiplies operand ms m := by
  have h := m.spelling operand.isGroup
  generalize m.pieces operand.isGroup = ps at h hms
  cases h with
  | counts => exact .counts (counts_of_rangePieces hm hms)
  | hashCounts =>
    obtain ⟨t, us, rfl, ht, _, hus⟩ := exists_of_map_key hms
    exact .hashCounts ht (counts_of_rangePieces hm hus)
  | exclamation hgroup =>
    obtain ⟨t, rfl, ht⟩ := exists_of_map_key_singleton hms
    exact .exclamation ht (hbrackets rfl hgroup)
  | question =>
    obtain ⟨t, rfl, ht⟩ := exists_of_map_key_singleton hms
    exact .question ht
  | star =>
    obtain ⟨t, rfl, ht⟩ := exists_of_map_key_singleton hms
    exact .star ht
  | plus =>
    obtain ⟨t, rfl, ht⟩ := exists_of_map_key_singleton hms
    exact .plus ht
  | hash =>
    obtain ⟨t, rfl, ht⟩ := exists_of_map_key_singleton hms
    exact .hash ht

theorem startsWith_openCurly_iff {m : Multiplier} {afterGroup : Bool} {ms : List Token}
    (hms : ms.map Token.kind = (keysOf (m.pieces afterGroup)).map Prod.fst) :
    startsWith .openCurly ms = true ↔ (m.chars afterGroup).head? = some '\x7b' := by
  rw [← textOf_pieces]
  have h := m.spelling afterGroup
  generalize m.pieces afterGroup = ps at h hms
  match ms with
  | [] => cases h <;> exact absurd hms (List.cons_ne_nil _ _).symm
  | t :: ms =>
    rw [List.map_cons] at hms
    cases h <;>
      simp only [rangePieces, List.cons_append, keysOf_token, List.map_cons,
        List.cons.injEq] at hms <;>
      simp [hms.1, textOf_cons, Piece.chars, lexeme, rangePieces]

end Multiplier

namespace Tree

theorem Connective.keysOf_pieces_of_some {c : Connective} {kind : Kind} (h : c.kind? = some kind) :
    keysOf c.pieces = [(kind, c.mark.toList)] := by
  simp [Connective.pieces, h]

theorem Connective.keysOf_pieces_of_none {c : Connective} (h : c.kind? = none) :
    keysOf c.pieces = [] := by
  simp [Connective.pieces, h]

/-- The tokens of operands with the marks between them. -/
theorem joins_of_pieces {c : Connective} {t : Tree} {operands : List Tree} {ts : List Token}
    (hts : ts.map key = keysOf (c.pieces.intercalate ((t :: operands).map pieces))) :
    ∃ parts : List (List Token × Tree), parts.map Prod.snd = t :: operands ∧
      (∀ p ∈ parts, p.1.map key = keysOf p.2.pieces) ∧ Joins c (parts.map Prod.fst) ts := by
  induction operands generalizing t ts with
  | nil =>
    rw [List.map_singleton, List.intercalate_singleton] at hts
    exact ⟨[(ts, t)], rfl, by simpa using hts, .last ts⟩
  | cons u operands ih =>
    rw [List.map_cons, List.map_cons, List.intercalate_cons_cons, keysOf_append, keysOf_append,
      List.append_assoc] at hts
    obtain ⟨us, rest, rfl, hus, hrest⟩ := List.map_eq_append_iff.mp hts
    cases hk : c.kind? with
    | some kind =>
      rw [Connective.keysOf_pieces_of_some hk] at hrest
      obtain ⟨mark, rest, rfl, hmark, _, hrest⟩ := exists_of_map_key hrest
      obtain ⟨parts, hsnd, hparts, hjoins⟩ := ih hrest
      refine ⟨(us, t) :: parts, by rw [List.map_cons, hsnd], ?_, .marked hk hmark hjoins⟩
      exact List.forall_mem_cons.mpr ⟨hus, hparts⟩
    | none =>
      rw [Connective.keysOf_pieces_of_none hk] at hrest
      obtain ⟨parts, hsnd, hparts, hjoins⟩ := ih hrest
      refine ⟨(us, t) :: parts, by rw [List.map_cons, hsnd], ?_, .adjacent hk hjoins⟩
      exact List.forall_mem_cons.mpr ⟨hus, hparts⟩

theorem endsInHash_singleton {t : Token} : EndsInHash [t] ↔ t.kind = .hash := by
  simp [EndsInHash]

theorem Multiplies.of_endsInHash {operand : Tree} {ms : List Token} {m : Multiplier}
    (h : Multiplies operand ms m) (hash : EndsInHash ms) : m = ⟨1, none, .comma⟩ := by
  cases h with
  | counts h => exact absurd hash h.not_endsInHash
  | @hashCounts t ts _ _ _ h =>
    have hash : EndsInHash ([t] ++ ts) := hash
    exact absurd ((endsInHash_append h.ne_nil).mp hash) h.not_endsInHash
  | hash h => rfl
  | star h | plus h | question h | exclamation h _ =>
    rw [endsInHash_singleton, h] at hash
    cases hash

/-- Only a `#` without counts ends in `#`. -/
theorem Derives.of_endsInHash {ts : List Token} {t : Tree} (h : Derives .repeated ts t)
    (hash : EndsInHash ts) : ∃ inner, t = Tree.multiplied inner ⟨1, none, .comma⟩ := by
  cases h with
  | once h => exact absurd hash h.not_endsInHash
  | multiplied h hm _ =>
    obtain ⟨x, us, rfl, _⟩ := hm.exists_cons
    rw [endsInHash_append (List.cons_ne_nil _ _)] at hash
    exact ⟨_, by rw [hm.of_endsInHash hash]⟩

theorem keysOf_brackets (inner : Tree) : keysOf (group inner true).pieces =
    (.openBracket, ['[']) :: (keysOf inner.pieces ++ [(.closeBracket, [']'])]) := by
  simp [pieces]

theorem keysOf_parentheses (inner : Tree) : keysOf (group inner false).pieces =
    (.openParen, ['(']) :: (keysOf inner.pieces ++ [(.closeParen, [')'])]) := by
  simp [pieces]

theorem keysOf_function {name : String} {arguments : Tree} (h : arguments ≠ noArguments) :
    keysOf (function name arguments).pieces =
      (.function, name.toList) :: (keysOf arguments.pieces ++ [(.closeParen, [')'])]) := by
  simp [pieces_function h]

theorem exists_of_enclosed {ts : List Token} {opening closing : Kind × List Char}
    {keys : List (Kind × List Char)} (h : ts.map key = opening :: (keys ++ [closing])) :
    ∃ o us c, ts = o :: (us ++ [c]) ∧ o.key = opening ∧ us.map key = keys ∧ c.key = closing := by
  obtain ⟨o, rest, rfl, ho, hrest⟩ := List.map_eq_cons_iff.mp h
  obtain ⟨us, cs, rfl, hus, hcs⟩ := List.map_eq_append_iff.mp hrest
  obtain ⟨c, rfl, hc⟩ := List.map_eq_singleton_iff.mp hcs
  exact ⟨o, us, c, rfl, ho, hus, hc⟩

def Rederives (phrase : Phrase) (t : Tree) : Prop :=
  ∀ ts : List Token, ts.map key = keysOf t.pieces → Derives phrase ts t

theorem rederives_group {inner : Tree} (h : Rederives (.level .oneOf) inner) (bracketed : Bool) :
    Rederives .term (group inner bracketed) := by
  intro ts hts
  cases bracketed with
  | true =>
    rw [keysOf_brackets] at hts
    obtain ⟨o, us, c, rfl, ho, hus, hc⟩ := exists_of_enclosed hts
    exact .brackets (congrArg Prod.fst ho) (h us hus) (congrArg Prod.fst hc)
  | false =>
    rw [keysOf_parentheses] at hts
    obtain ⟨o, us, c, rfl, ho, hus, hc⟩ := exists_of_enclosed hts
    exact .parentheses (congrArg Prod.fst ho) (h us hus) (congrArg Prod.fst hc)

theorem rederives_emptyFunction (name : String) :
    Rederives .term (function name noArguments) := by
  intro ts hts
  obtain ⟨f, us, rfl, hf, hus⟩ := List.map_eq_cons_iff.mp hts
  obtain ⟨c, rfl, hc⟩ := List.map_eq_singleton_iff.mp hus
  obtain ⟨hkind, rfl⟩ := eq_of_key hf
  exact .emptyFunction hkind (congrArg Prod.fst hc)

theorem rederives_function {name : String} {arguments : Tree} (hne : arguments ≠ noArguments)
    (h : Rederives (.level .oneOf) arguments) : Rederives .term (function name arguments) := by
  intro ts hts
  rw [keysOf_function hne] at hts
  obtain ⟨f, us, c, rfl, hf, hus, hc⟩ := exists_of_enclosed hts
  obtain ⟨hkind, rfl⟩ := eq_of_key hf
  exact .function hkind (h us hus) (congrArg Prod.fst hc)

theorem rederives_multiplied {inner : Tree} {m : Multiplier} (hm : m.Readable)
    (hprint : misprinted (multiplied inner m) = false) (h : Rederives .repeated inner) :
    Rederives .repeated (multiplied inner m) := by
  intro ts hts
  rw [pieces, keysOf_append] at hts
  obtain ⟨us, ms, rfl, hus, hms⟩ := List.map_eq_append_iff.mp hts
  have hinner := h us hus
  refine .multiplied hinner (Multiplier.multiplies_of_pieces hm hms ?_) fun hash => ?_
  · -- The mark for exactly once stands behind brackets only.
    intro hm hgroup
    exact isBracketedGroup_of_not_misprinted hprint hm hgroup
  · -- Behind a lone `#` no multiplier is written in braces.
    obtain ⟨operand, rfl⟩ := hinner.of_endsInHash hash
    have hkinds : ms.map Token.kind = (keysOf (m.pieces false)).map Prod.fst :=
      map_kind_of_map_key hms
    rw [Bool.eq_false_iff, ne_eq, Multiplier.startsWith_openCurly_iff hkinds]
    simpa [misprinted] using hprint

theorem rederives_joined {c : Connective} {operands : List Tree} (hlen : 2 ≤ operands.length)
    (h : ∀ t ∈ operands, Rederives (.operandOf c) t) :
    Rederives (.level c) (joined c operands) := by
  intro ts hts
  rw [pieces, piecesEach_eq_map] at hts
  match operands with
  | t :: operands =>
    obtain ⟨parts, hsnd, hparts, hjoins⟩ := joins_of_pieces hts
    rw [← hsnd] at hlen h ⊢
    refine .joined (by simpa using hlen) (fun p hp => ?_) hjoins
    exact h p.2 (List.mem_map_of_mem hp) p.1 (hparts p hp)

/-- The tokens of a canonical text stand for its tree, if nothing in it is misprinted. -/
theorem Written.rederives {phrase : Phrase} {t : Tree} (h : Written phrase t)
    (hprint : t.Printable) : Rederives phrase t := by
  induction h with
  | leaf h =>
    intro ts hts
    rw [h.pieces] at hts
    obtain ⟨tok, rfl, hkey⟩ := List.map_eq_singleton_iff.mp hts
    exact .leaf (h.ofLeaf? tok hkey)
  | group bracketed _ ih => exact rederives_group (ih (printable_group.mp hprint)) bracketed
  | emptyFunction => exact rederives_emptyFunction _
  | function _ h ih =>
    exact rederives_function h.ne_noArguments (ih (printable_function.mp hprint))
  | once _ ih => exact fun ts hts => .once (ih hprint ts hts)
  | multiplied _ hm ih =>
    obtain ⟨hself, hinner⟩ := printable_multiplied.mp hprint
    exact rederives_multiplied hm hself (ih hinner)
  | single _ ih => exact fun ts hts => .single (ih hprint ts hts)
  | joined hlen _ ih =>
    exact rederives_joined hlen fun t ht => ih t ht (printable_joined.mp hprint t ht)

end Tree

end ValueSyntax
