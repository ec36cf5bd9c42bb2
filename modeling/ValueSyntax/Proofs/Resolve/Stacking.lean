import ValueSyntax.Proofs.Resolve.OperandOrder
import ValueSyntax.Proofs.Tree.Stacking

namespace ValueSyntax

open Ascending Shapes MultiplierText

variable {k : Catalog} {t u v : Tree} {types : List Shape}

/-- The trees have the same shapes of their own and refer to the same properties. -/
structure Tree.Alike (k : Catalog) (t u : Tree) : Prop where
  own : t.own k = u.own k
  expands : ∀ name, t.Expands k name ↔ u.Expands k name
  contributes : ∀ name, t.Contributes k name ↔ u.Contributes k name

namespace Tree

theorem Alike.refl (k : Catalog) (t : Tree) : Alike k t t where
  own := rfl
  expands _ := Iff.rfl
  contributes _ := Iff.rfl

theorem Alike.trans (h : Alike k t u) (h' : Alike k u v) : Alike k t v where
  own := h.own.trans h'.own
  expands name := (h.expands name).trans (h'.expands name)
  contributes name := (h.contributes name).trans (h'.contributes name)

theorem Alike.symm (h : Alike k t u) : Alike k u t where
  own := h.own.symm
  expands name := (h.expands name).symm
  contributes name := (h.contributes name).symm

theorem refers_group_iff {passes : Connective → Nat → Prop} {name : String} :
    Refers k passes (group t true) name ↔ Refers k passes t name := by
  refine ⟨fun h => ?_, .group⟩
  cases h with
  | group h => exact h

theorem refers_multiplied_iff {passes : Connective → Nat → Prop} {m : Multiplier} {name : String} :
    Refers k passes (multiplied t m) name ↔ m.max = some 1 ∧ Refers k passes t name := by
  refine ⟨fun h => ?_, fun h => .multiplied h.1 h.2⟩
  cases h with
  | multiplied hm h => exact ⟨hm, h⟩

theorem alike_group (k : Catalog) (t : Tree) : Alike k (group t true) t where
  own := rfl
  expands _ := refers_group_iff
  contributes _ := refers_group_iff

theorem alike_multiplied {m : Multiplier} (hm : m.max = some 1) : Alike k (multiplied t m) t where
  own := by simp [own, hm]
  expands _ := refers_multiplied_iff.trans (and_iff_right hm)
  contributes _ := refers_multiplied_iff.trans (and_iff_right hm)

theorem Alike.yields_iff (h : Alike k t u) {x : Shape} : t.Yields k x ↔ u.Yields k x := by
  simp only [Yields, h.own, h.contributes]

end Tree

theorem Settled.alike (h : t.Alike k u) (ht : Settled k t types) : Settled k u types where
  sorted := ht.sorted
  mem_iff x := by
    rw [ht.mem_iff, Tree.Closure, Tree.Closure, h.yields_iff]
    simp only [h.contributes]
  nonempty := ht.nonempty
  readable name hn := ht.readable name ((h.expands name).mpr hn)

theorem Settled.of_own (h : ∀ name, ¬ t.Expands k name) :
    Settled k t (k.settings.finish (t.own k)) where
  sorted := toList_ofList_finish
  mem_iff x := by
    have hnone : ∀ name, ¬ t.Contributes k name := fun name hc => h name hc.expands
    simp only [mem_finish, Tree.Closure, Tree.Yields, hnone, false_and, exists_false, or_false,
      not_false_eq_true, implies_true, and_true]
  nonempty hf := exists_mem_finish hf
  readable name hn := absurd hn (h name)

/-- The last of the multipliers with another maximum than one. -/
def lastHiding? (ms : List Multiplier) : Option Multiplier := ms.reverse.find? (·.max ≠ some 1)

theorem lastHiding?_append (ms : List Multiplier) (m : Multiplier) :
    lastHiding? (ms ++ [m]) = if m.max ≠ some 1 then some m else lastHiding? ms := by
  unfold lastHiding?
  rw [List.reverse_append, List.reverse_singleton, List.singleton_append, List.find?_cons]
  split <;> simp_all

/-- A pile of multipliers is as good as the last of them that hides the term, or as none. -/
theorem Tree.alike_stack (k : Catalog) (t : Tree) (ms : List Multiplier) :
    match lastHiding? ms with
    | none => (t.stack ms).Alike k t
    | some m => m.max ≠ some 1 ∧ ∃ inner, (t.stack ms).Alike k (multiplied inner m) := by
  -- From the outermost multiplier inwards, as resolution goes through the tree.
  induction ms using List.reverseRecOn with
  | nil => exact .refl k t
  | append_singleton ms m ih =>
    rw [lastHiding?_append, stack_append]
    by_cases hm : m.max = some 1
    · rw [if_neg (not_not.mpr hm)]
      have hlayer : Alike k (multiplied (t.stack ms) m) (t.stack ms) := alike_multiplied hm
      split at ih
      · exact hlayer.trans ih
      · obtain ⟨hm', inner, hinner⟩ := ih
        exact ⟨hm', inner, hlayer.trans hinner⟩
    · rw [if_pos hm]
      exact ⟨hm, t.stack ms, .refl k _⟩

/-- What a multiplier leaves of a term that it hides: any string, or nothing if the term is never to
stand and nothing is not replaced. -/
def Multiplier.leaves (settings : Settings) (m : Multiplier) : List Shape :=
  if m.max = some 0 ∧ ¬ settings.fallbackOnEmpty then [] else [.anyString]

theorem Multiplier.eq_anyString_of_mem_leaves {settings : Settings} {m : Multiplier} :
    ∀ x ∈ m.leaves settings, x = .anyString := by
  unfold leaves
  split <;> simp

theorem Multiplier.leaves_eq_finish (settings : Settings) (m : Multiplier) :
    m.leaves settings = settings.finish (if m.max = some 0 then empty else any) := by
  by_cases hzero : m.max = some 0
  · have hempty : (empty : Shapes).isEmpty = true := rfl
    rw [leaves, Settings.finish, if_pos hzero]
    cases hf : settings.fallbackOnEmpty with
    | true => rw [if_neg (by simp), if_pos ⟨hempty, rfl⟩]
    | false =>
      rw [if_pos ⟨hzero, by simp⟩, if_neg (by simp)]
      rfl
  · have hany : any.isEmpty = false := rfl
    rw [leaves, Settings.finish, if_neg hzero, if_neg (fun h => hzero h.1), if_neg (by simp [hany])]
    rfl

theorem Settled.multiplied {m : Multiplier} (hm : m.max ≠ some 1) :
    Settled k (.multiplied t m) (m.leaves k.settings) := by
  have hown : (Tree.multiplied t m).own k = if m.max = some 0 then empty else any := by
    rw [Tree.own, if_neg hm]
  rw [Multiplier.leaves_eq_finish, ← hown]
  exact .of_own fun name hn => hm (Tree.refers_multiplied_iff.mp hn).1

theorem returns_of_gives {source : Source} (h : k.Gives source.text types)
    (hplain : ∀ x ∈ types, x = .anyString) :
    Returns (resolveText k source) {} ⟨types, false⟩ := by
  have hends := (tells_text source).ensures_resolution (.self (Session.Ready.start (k := k)))
  have hnames : dataTypeNames types = [] := by
    refine List.filterMap_eq_nil_iff.mpr fun x hx => ?_
    rw [hplain x hx]
    rfl
  unfold Returns
  cases hx : resolveText k source {} with
  | ok r s =>
    obtain ⟨hr, hright, -⟩ := hends.of_ok hx
    have htypes : r.types = types := hr.unique h
    have hneeds : r.needsLength = false := by
      rw [Bool.eq_false_iff, ne_eq, hright.needsLength_iff, htypes]
      rintro (hlength | ⟨name, hname, -⟩)
      · cases hplain _ hlength
      · cases hplain _ hname
    exact ⟨s, by rw [← htypes, ← hneeds]⟩
  | error e s =>
    have hdoomed := (hends.of_error hx types h).2
    rw [hnames] at hdoomed
    exact hdoomed.elim

theorem SameAfresh.returns_iff {α : Type} {x y : Resolving α} (h : SameAfresh x y) (a : α) :
    Returns x {} a ↔ Returns y {} a := by
  unfold SameAfresh at h
  unfold Returns
  cases hx : x {} <;> cases hy : y {} <;> simp_all

/-- Brackets and multipliers from text to types: with multipliers up to one only, a definition in
brackets has the types of the definition alone, and needs the length or fails if that one does. Else
the last multiplier with another maximum decides, whatever stands before and behind it. -/
theorem stacked_text_resolves {text : String} {u t : Tree} {ms : List MultiplierText} (k : Catalog)
    (name name' : String) (hu : Tree.ofText text = .ok u) (hapart : Apart ms)
    (ht : Tree.ofText (stacked text ms) = .ok t) :
    match lastHiding? (ms.map multiplier) with
    | none => ∀ r, Returns (resolveText k ⟨name, stacked text ms⟩) {} r ↔
        Returns (resolveText k ⟨name', text⟩) {} r
    | some m =>
      Returns (resolveText k ⟨name, stacked text ms⟩) {} ⟨m.leaves k.settings, false⟩ := by
  obtain rfl := Tree.ofText_stacked hu hapart ht
  -- The runs of the two texts remember different things, so they are compared by what is final.
  have halike := Tree.alike_stack k (.group u true) (ms.map multiplier)
  split at halike
  · have hinner := halike.trans (Tree.alike_group k u)
    have hgives : ∀ types, k.Gives (stacked text ms) types ↔ k.Gives text types := by
      intro types
      constructor
      · rintro ⟨t, ht', h⟩
        cases ht.symm.trans ht'
        exact ⟨u, hu, h.alike hinner⟩
      · rintro ⟨t, hu', h⟩
        cases hu.symm.trans hu'
        exact ⟨_, ht, h.alike hinner.symm⟩
    have hsame := Tells.sameAfresh (.refl k) (tells_text ⟨name, stacked text ms⟩)
      (tells_text ⟨name', text⟩) hgives
    exact hsame.returns_iff
  · obtain ⟨hm, inner, hinner⟩ := halike
    have hgives : k.Gives (stacked text ms) _ := ⟨_, ht, (Settled.multiplied hm).alike hinner.symm⟩
    exact returns_of_gives hgives Multiplier.eq_anyString_of_mem_leaves

def requiredText : MultiplierText where
  text := "!"
  tokens := [⟨.exclamation, "!", 0, 1⟩]
  multiplier := ⟨1, some 1, .space⟩
  scanned := by decide +kernel
  multiplies := ⟨.group Tree.noArguments true, .exclamation rfl rfl⟩

def onceText : MultiplierText where
  text := "# {1}"
  tokens := [⟨.hash, "#", 0, 1⟩, ⟨.openCurly, "\x7b", 2, 3⟩, ⟨.number, "1", 3, 4⟩,
    ⟨.closeCurly, "\x7d", 4, 5⟩]
  multiplier := ⟨1, some 1, .comma⟩
  scanned := by decide +kernel
  multiplies := ⟨Tree.noArguments, .hashCounts rfl (.exactly rfl rfl (by decide) rfl)⟩

def neverText : MultiplierText where
  text := "{0}"
  tokens := [⟨.openCurly, "\x7b", 0, 1⟩, ⟨.number, "0", 1, 2⟩, ⟨.closeCurly, "\x7d", 2, 3⟩]
  multiplier := ⟨0, some 0, .space⟩
  scanned := by decide +kernel
  multiplies := ⟨Tree.noArguments, .counts (.exactly rfl rfl (by decide) rfl)⟩

def withoutDefinitions : Catalog where
  dataTypes := .ofList []
  properties := .ofList []
  settings := { fallbackOnEmpty := false }

/-- With a multiplier between transparent ones that hides the length, and without. -/
theorem stacked_text_resolves_length :
    (stacked "<length>" [requiredText, onceText] = "[ <length> ]!# {1}" ∧
      Apart [requiredText, onceText] ∧
      Returns (resolveText withoutDefinitions ⟨"v", "[ <length> ]!# {1}"⟩) {}
        ⟨[.dataType "length"], true⟩) ∧
    (stacked "<length>" [requiredText, neverText, onceText] = "[ <length> ]!{0}# {1}" ∧
      Apart [requiredText, neverText, onceText] ∧
      Returns (resolveText withoutDefinitions ⟨"v", "[ <length> ]!{0}# {1}"⟩) {} ⟨[], false⟩) := by
  have hapart : Apart [requiredText, onceText] := by
    simp [Apart, Tree.EndsInHash, requiredText]
  have hapart' : Apart [requiredText, neverText, onceText] := by
    simp [Apart, Tree.EndsInHash, requiredText, neverText]
  have accepted : ∀ text, (Tree.ofText text).isOk → ∃ t, Tree.ofText text = .ok t := by
    intro text h
    cases ht : Tree.ofText text with
    | ok t => exact ⟨t, rfl⟩
    | error e => simp [ht, Except.isOk, Except.toBool] at h
  obtain ⟨u, hu⟩ := accepted "<length>" (by decide +kernel)
  obtain ⟨t, ht⟩ := accepted "[ <length> ]!# {1}" (by decide +kernel)
  obtain ⟨t', ht'⟩ := accepted "[ <length> ]!{0}# {1}" (by decide +kernel)
  have hlength : Returns (resolveText withoutDefinitions ⟨"v", "<length>"⟩) {}
      ⟨[.dataType "length"], true⟩ := by decide +kernel
  refine ⟨⟨rfl, hapart, ?_⟩, rfl, hapart', ?_⟩
  · exact (stacked_text_resolves withoutDefinitions "v" "v" hu hapart ht _).mpr hlength
  · exact stacked_text_resolves withoutDefinitions "v" "v" hu hapart' ht'

end ValueSyntax
