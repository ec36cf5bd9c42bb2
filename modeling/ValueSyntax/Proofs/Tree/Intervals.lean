import ValueSyntax.Proofs.Tree.Names
import ValueSyntax.Proofs.Tree.RoundTrip

namespace ValueSyntax

namespace Binary64

theorem below_or_same {x y : Binary64} (hx : x ≠ .nan) (hy : y ≠ .nan) (h : y.below x = false) :
    x.below y ∨ x.same y := by
  cases x with
  | nan => exact absurd rfl hx
  | infinite a =>
    cases y with
    | nan => exact absurd rfl hy
    | infinite b => cases a <;> cases b <;> simp_all [below, same]
    | finite b n => simp_all [below]
  | finite a m =>
    cases y with
    | nan => exact absurd rfl hy
    | infinite b => simp_all [below]
    | finite b n =>
      simp only [below, same, decide_eq_false_iff_not, decide_eq_true_eq, beq_iff_eq] at h ⊢
      omega

theorem below_infinite {x : Binary64} (hx : x ≠ .nan) (hne : x ≠ .infinite false) :
    x.below (.infinite false) := by
  cases x with
  | nan => exact absurd rfl hx
  | infinite a => cases a <;> simp_all [below]
  | finite => rfl

theorem infinite_below {x : Binary64} (hx : x ≠ .nan) (hne : x ≠ .infinite true) :
    below (.infinite true) x := by
  cases x with
  | nan => exact absurd rfl hx
  | infinite a => cases a <;> simp_all [below]
  | finite => rfl

end Binary64

namespace Range

open Binary64

/-- The ends of a range, which goes on for ever where it has no bound. -/
def low (r : Range) : Binary64 := r.min.getD (.infinite true)

def high (r : Range) : Binary64 := r.max.getD (.infinite false)

/-- A proper interval: a bound is finite or the infinity of its own side, and the lower one is at
most the upper one. -/
structure IsInterval (r : Range) : Prop where
  min : ∀ x ∈ r.min, x = .infinite true ∨ ∃ negative units, x = .finite negative units
  max : ∀ y ∈ r.max, y = .infinite false ∨ ∃ negative units, y = .finite negative units
  ordered : ∀ x ∈ r.min, ∀ y ∈ r.max, x.below y ∨ x.same y

theorem high_not_below_low {r : Range} (h : r.reversed = false) : r.high.below r.low = false := by
  obtain ⟨min, max⟩ := r
  match min, max with
  | none, none => rfl
  | none, some y => rcases y with _ | (_ | _) | _ <;> rfl
  | some x, none => rcases x with _ | (_ | _) | _ <;> rfl
  | some x, some y => exact h

theorem low_of_isInterval {r : Range} (h : r.IsInterval) : r.low ≠ .nan ∧ r.low ≠ .infinite false := by
  unfold low
  cases hmin : r.min with
  | none => simp
  | some x => rcases h.min x hmin with rfl | ⟨_, _, rfl⟩ <;> simp

theorem high_of_isInterval {r : Range} (h : r.IsInterval) :
    r.high ≠ .nan ∧ r.high ≠ .infinite true := by
  unfold high
  cases hmax : r.max with
  | none => simp
  | some x => rcases h.max x hmax with rfl | ⟨_, _, rfl⟩ <;> simp

/-- If the bounds are not in reverse order, there are two ways of not being an interval: a bound is
no number, or both ends are the same infinity. -/
theorem isInterval_iff {r : Range} (h : r.reversed = false) :
    r.IsInterval ↔ r.low ≠ .nan ∧ r.high ≠ .nan ∧
      ∀ side, ¬ (r.low = .infinite side ∧ r.high = .infinite side) := by
  have hbelow := high_not_below_low h
  constructor
  · intro hr
    obtain ⟨hlow, hlow'⟩ := low_of_isInterval hr
    obtain ⟨hhigh, hhigh'⟩ := high_of_isInterval hr
    refine ⟨hlow, hhigh, fun side hside => ?_⟩
    cases side with
    | false => exact hlow' hside.1
    | true => exact hhigh' hside.2
  · rintro ⟨hlow, hhigh, hside⟩
    -- An infinite bound on the wrong side is out of order with all but itself.
    have hlow' : r.low ≠ .infinite false := by
      intro heq
      have := below_infinite hhigh fun hhigh => hside false ⟨heq, hhigh⟩
      rw [heq, this] at hbelow
      cases hbelow
    have hhigh' : r.high ≠ .infinite true := by
      intro heq
      have := infinite_below hlow fun hlow => hside true ⟨hlow, heq⟩
      rw [heq, this] at hbelow
      cases hbelow
    constructor
    · intro x hx
      rw [low, hx, Option.getD_some] at hlow hlow'
      rcases x with _ | (_ | _) | _ <;> simp_all
    · intro y hy
      rw [high, hy, Option.getD_some] at hhigh hhigh'
      rcases y with _ | (_ | _) | _ <;> simp_all
    · intro x hx y hy
      rw [low, hx, Option.getD_some] at hlow hbelow
      rw [high, hy, Option.getD_some] at hhigh hbelow
      exact below_or_same hlow hhigh hbelow

end Range

namespace Tree

theorem Derives.valid_of_reference {phrase : Phrase} {ts : List Token} {t : Tree}
    (h : Derives phrase ts t) {name : String} {r : Range} {property : Bool}
    (hr : reference name (some r) property ∈ t.subtrees) : r.Valid := by
  obtain ⟨tok, -, hleaf⟩ := h.exists_leaf_of_reference hr
  cases hleaf with
  | reference _ _ _ _ hrange =>
    cases hrange with
    | range hread => exact Range.valid_of_read? hread

/-- Any two numbers are bounds, unless they stand in reverse order. -/
theorem ofText_reference {r : Range} (h : r.Valid) :
    ofText (reference "a" (some r) false).text = .ok (reference "a" (some r) false) := by
  have hname : Token.IsName ['a'] := ⟨[], 'a', [], rfl, nofun, by decide, by decide, nofun⟩
  have hvalid : ∀ r' ∈ some r, Range.Valid r' := by
    intro r' hr'
    cases hr'
    exact h
  have hleaf : Written .term (reference "a" (some r) false) :=
    .leaf (isLeaf_referenceNamed ⟨_, hname, Or.inr (Or.inl rfl)⟩ hvalid)
  obtain ⟨tokens, hscan, hkeys⟩ := hleaf.scan_text
  apply ofText_of_repeated hscan
  refine .once (hleaf.rederives ?_ _ hkeys)
  simp [Printable, subtrees, misprinted]

end Tree

/-- The ranges of the definitions that can be read are those whose bounds are numbers, or left out,
and not in reverse order. Such a range is an interval unless a bound is `nan` or both ends are the
same infinity. -/
theorem ranges_of_texts (r : Range) :
    ((∃ text t name property, Tree.ofText text = .ok t ∧
      .reference name (some r) property ∈ t.subtrees) ↔ r.Valid) ∧
    ∀ text t name property, Tree.ofText text = .ok t →
      .reference name (some r) property ∈ t.subtrees →
      (r.IsInterval ↔ r.low ≠ .nan ∧ r.high ≠ .nan ∧
        ∀ side, ¬ (r.low = .infinite side ∧ r.high = .infinite side)) := by
  have valid : ∀ text t name property, Tree.ofText text = .ok t →
      .reference name (some r) property ∈ t.subtrees → r.Valid := by
    intro text t name property h hmem
    obtain ⟨tokens, -, hderives⟩ := Tree.ofText_eq_ok_iff.mp h
    exact hderives.valid_of_reference hmem
  refine ⟨⟨fun ⟨text, t, name, property, h, hmem⟩ => valid text t name property h hmem,
    fun hr => ?_⟩, fun text t name property h hmem => ?_⟩
  · exact ⟨_, _, "a", false, Tree.ofText_reference hr, by simp [Tree.subtrees]⟩
  · exact Range.isInterval_iff (valid text t name property h hmem).ordered

/-- The numbers that are not negative, with an infinity that is a number. -/
def notNegative : Range := ⟨some (.finite false 0), some (.infinite false)⟩

theorem ranges_of_texts_not_negative :
    Tree.ofText "<a [0,Inf]>" = .ok (.reference "a" (some notNegative) false) ∧
    notNegative.IsInterval := by
  have hscan : Token.scan "<a [0,Inf]>" = .ok [⟨.reference, "a [0,Inf]", 0, 11⟩, .endAt 11] := by
    decide +kernel
  have hread : Tree.ofText "<a [0,Inf]>" = .ok (.reference "a" (some notNegative) false) :=
    Tree.ofText_of_repeated hscan (.once (.leaf rfl))
  obtain ⟨-, hinterval⟩ := ranges_of_texts notNegative
  refine ⟨hread, (hinterval _ _ "a" false hread (by simp [Tree.subtrees])).mpr ?_⟩
  exact ⟨by decide, by decide, by decide⟩

/-- An infinity below that is the one above. -/
theorem infinity_on_both_ends :
    Tree.ofText "<number [inf,inf]>" = .ok (.reference "number"
      (some ⟨some (.infinite false), some (.infinite false)⟩) false) ∧
    ¬ Range.IsInterval ⟨some (.infinite false), some (.infinite false)⟩ := by
  have hscan : Token.scan "<number [inf,inf]>" =
      .ok [⟨.reference, "number [inf,inf]", 0, 18⟩, .endAt 18] := by decide +kernel
  refine ⟨Tree.ofText_of_repeated hscan (.once (.leaf rfl)), fun h => ?_⟩
  simpa using h.min _ rfl

end ValueSyntax
