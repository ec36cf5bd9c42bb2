import Mathlib.Data.List.Forall2
import ValueSyntax.Proofs.Token.Layout
import ValueSyntax.Tree.Parse

namespace ValueSyntax

/-- The same token, read at some other place. -/
structure Token.Moved (t u : Token) : Prop where
  kind : t.kind = u.kind
  value : t.value = u.value

namespace Tree

open Token (Moved)

/-- Outcomes that differ in places only. -/
inductive Agrees {α : Type} {P Q : α × List Token → Prop} :
    Except Fault {r // P r} → Except Fault {r // Q r} → Prop
  | read {a : α} {rest rest' : List Token} {hp : P (a, rest)} {hq : Q (a, rest')}
      (h : List.Forall₂ Moved rest rest') : Agrees (.ok ⟨(a, rest), hp⟩) (.ok ⟨(a, rest'), hq⟩)
  | fault {f g : Fault} (h : f.cause = g.cause) : Agrees (.error f) (.error g)

inductive AgreesIfAny {α : Type} {P Q : α × List Token → Prop} :
    Except Fault (Option {r // P r}) → Except Fault (Option {r // Q r}) → Prop
  | none : AgreesIfAny (.ok none) (.ok none)
  | read {a : α} {rest rest' : List Token} {hp : P (a, rest)} {hq : Q (a, rest')}
      (h : List.Forall₂ Moved rest rest') :
      AgreesIfAny (.ok (some ⟨(a, rest), hp⟩)) (.ok (some ⟨(a, rest'), hq⟩))
  | fault {f g : Fault} (h : f.cause = g.cause) : AgreesIfAny (.error f) (.error g)

@[elab_as_elim]
theorem Agrees.elim {α : Type} {P Q : α × List Token → Prop}
    {motive : Except Fault {r // P r} → Except Fault {r // Q r} → Prop}
    {x : Except Fault {r // P r}} {y : Except Fault {r // Q r}} (h : Agrees x y)
    (fault : ∀ {f g : Fault}, f.cause = g.cause → motive (.error f) (.error g))
    (read : ∀ {a rest rest'} {hp : P (a, rest)} {hq : Q (a, rest')}, List.Forall₂ Moved rest rest' →
      motive (.ok ⟨(a, rest), hp⟩) (.ok ⟨(a, rest'), hq⟩)) : motive x y := by
  cases h with
  | read h => exact read h
  | fault h => exact fault h

variable {last last' : Token} {ts us : List Token}

theorem unexpected_moved (hlast : last.Moved last') (h : List.Forall₂ Moved ts us) :
    (unexpected last ts).cause = (unexpected last' us).cause := by
  cases h with
  | nil => simp only [unexpected, hlast.value]
  | cons ht _ => simp only [unexpected, ht.kind, ht.value]

theorem closed_moved (hlast : last.Moved last') (h : List.Forall₂ Moved ts us)
    (closing : Token.Kind) (opening : String) (openedAt openedAt' : Nat) :
    Agrees (closed last closing opening openedAt ts) (closed last' closing opening openedAt' us) := by
  cases h with
  | nil => exact .fault rfl
  | cons ht h =>
    rw [closed, closed, ht.kind]
    split
    · exact .read h
    · exact .fault (unexpected_moved hlast (.cons ht h))

theorem repeatCount_moved (hlast : last.Moved last') (h : List.Forall₂ Moved ts us) :
    Agrees (repeatCount last ts) (repeatCount last' us) := by
  cases h with
  | nil => exact .fault (by rw [hlast.value])
  | cons ht h =>
    rw [repeatCount, repeatCount, ht.kind, ht.value]
    split
    · split
      · exact .read h
      · exact .fault rfl
    · exact .fault rfl

theorem startsWith_moved (h : List.Forall₂ Moved ts us) (kind : Token.Kind) :
    startsWith kind ts = startsWith kind us := by
  cases h with
  | nil => rfl
  | cons ht _ => simp only [startsWith, ht.kind]

theorem repeatMaximum_moved (hlast : last.Moved last') (h : List.Forall₂ Moved ts us) (min : Nat) :
    Agrees (repeatMaximum last min ts) (repeatMaximum last' min us) := by
  cases h with
  | nil => exact .read .nil
  | cons ht h =>
    rw [repeatMaximum, repeatMaximum, ht.kind, startsWith_moved h]
    split
    · split
      · exact (repeatCount_moved hlast h).elim .fault .read
      · exact .read h
    · exact .read (.cons ht h)

theorem counted_moved (hlast : last.Moved last') (h : List.Forall₂ Moved ts us)
    (separator : Separator) (openedAt openedAt' : Nat) :
    Agrees (counted last separator openedAt ts) (counted last' separator openedAt' us) := by
  rw [counted, counted]
  refine (repeatCount_moved hlast h).elim .fault fun {min} _ _ _ _ h => ?_
  dsimp only
  refine (repeatMaximum_moved hlast h min).elim .fault fun {max} _ _ _ _ h => ?_
  dsimp only
  refine (closed_moved hlast h .closeCurly "\x7b" openedAt openedAt').elim .fault
    fun {_} _ _ _ _ h => ?_
  dsimp only
  split
  · exact .fault rfl
  · exact .read h

theorem braced_moved (hlast : last.Moved last') (h : List.Forall₂ Moved ts us)
    (separator : Separator) : Agrees (braced last separator ts) (braced last' separator us) := by
  cases h with
  | nil => exact .fault (unexpected_moved hlast .nil)
  | @cons t u _ _ _ h =>
    rw [braced, braced]
    exact (counted_moved hlast h separator t.start u.start).elim .fault .read

theorem multiplier?_moved (hlast : last.Moved last') (h : List.Forall₂ Moved ts us)
    (operand : Tree) :
    AgreesIfAny (multiplier? last operand ts) (multiplier? last' operand us) := by
  cases h with
  | nil => exact .none
  | cons ht h =>
    rw [multiplier?, multiplier?, ht.kind, startsWith_moved h]
    split
    · exact .read h
    · exact .read h
    · exact .read h
    · split
      · exact .read h
      · exact .fault rfl
    · split
      · exact (braced_moved hlast h .comma).elim .fault .read
      · exact .read h
    · exact (braced_moved hlast (.cons ht h) .space).elim .fault .read
    · exact .none

theorem multipliedBy_moved (hlast : last.Moved last') {ts us : List Token}
    (h : List.Forall₂ Moved ts us) (operand : Tree) :
    Agrees (multipliedBy last operand ts) (multipliedBy last' operand us) := by
  rw [multipliedBy.eq_def last, multipliedBy.eq_def last']
  have hfinds := multiplier?_moved hlast h operand
  generalize multiplier? last operand ts = x at hfinds ⊢
  generalize multiplier? last' operand us = y at hfinds ⊢
  cases hfinds with
  | none => exact .read h
  | fault h => exact .fault h
  | @read m rest _ hlt _ hrest =>
    dsimp only
    exact (multipliedBy_moved hlast hrest (multiplied operand m)).elim .fault .read
termination_by ts.length

theorem ofLeaf?_moved {t u : Token} (h : t.Moved u) :
    (ofLeaf? t = none ∧ ofLeaf? u = none) ∨
      (∃ leaf, ofLeaf? t = some (.ok leaf) ∧ ofLeaf? u = some (.ok leaf)) ∨
      ∃ f g, ofLeaf? t = some (.error f) ∧ ofLeaf? u = some (.error g) ∧ f.cause = g.cause := by
  unfold ofLeaf?
  rw [h.kind, h.value]
  split
  iterate 4 exact Or.inr (Or.inl ⟨_, rfl, rfl⟩)
  · unfold ofReference
    rw [h.value]
    dsimp only
    split
    · exact Or.inr (Or.inl ⟨_, rfl, rfl⟩)
    · split
      · exact Or.inr (Or.inl ⟨_, rfl, rfl⟩)
      · exact Or.inr (Or.inr ⟨_, _, rfl, rfl, rfl⟩)
  · unfold ofNumber
    rw [h.value]
    dsimp only
    split
    · exact Or.inr (Or.inr ⟨_, _, rfl, rfl, rfl⟩)
    · exact Or.inr (Or.inl ⟨_, rfl, rfl⟩)
  · exact Or.inl ⟨rfl, rfl⟩

theorem next?_moved (h : List.Forall₂ Moved ts us) (c : Connective) :
    (c.next? ts = none ∧ c.next? us = none) ∨
      ∃ rest rest', ∃ (hp : rest.length ≤ ts.length) (hq : rest'.length ≤ us.length),
        c.next? ts = some ⟨((), rest), hp⟩ ∧ c.next? us = some ⟨((), rest'), hq⟩ ∧
          List.Forall₂ Moved rest rest' := by
  cases h with
  | nil => exact Or.inl ⟨rfl, rfl⟩
  | cons ht h =>
    rw [Connective.next?, Connective.next?, ht.kind]
    split
    · split
      · exact Or.inr ⟨_, _, Nat.le_succ _, Nat.le_succ _, rfl, rfl, h⟩
      · exact Or.inl ⟨rfl, rfl⟩
    · split
      · exact Or.inr ⟨_, _, Nat.le_refl _, Nat.le_refl _, rfl, rfl, .cons ht h⟩
      · exact Or.inl ⟨rfl, rfl⟩

mutual

theorem level_moved (hlast : last.Moved last') {ts us : List Token}
    (h : List.Forall₂ Moved ts us) (c : Connective) :
    Agrees (level last c ts) (level last' c us) := by
  rw [level.eq_def last, level.eq_def last']
  refine (operand_moved hlast h c).elim .fault fun {first rest _} hlt _ h => ?_
  have hlt : rest.length < ts.length := hlt
  dsimp only
  exact (others_moved hlast h c).elim .fault .read
termination_by 10 * ts.length + 2 * c.looseness + 2

theorem operand_moved (hlast : last.Moved last') {ts us : List Token}
    (h : List.Forall₂ Moved ts us) (c : Connective) :
    Agrees (operand last c ts) (operand last' c us) := by
  rw [operand.eq_def last, operand.eq_def last']
  match c with
  | .oneOf => exact level_moved hlast h .anyOrder
  | .anyOrder => exact level_moved hlast h .allRequired
  | .allRequired => exact level_moved hlast h .juxtaposition
  | .juxtaposition =>
    refine (term_moved hlast h).elim .fault fun {t rest _} _ _ h => ?_
    dsimp only
    exact (multipliedBy_moved hlast h t).elim .fault .read
termination_by 10 * ts.length + 2 * c.looseness + 1
decreasing_by all_goals simp only [Connective.looseness]; omega

theorem others_moved (hlast : last.Moved last') {ts us : List Token}
    (h : List.Forall₂ Moved ts us) (c : Connective) :
    Agrees (others last c ts) (others last' c us) := by
  rw [others.eq_def last, others.eq_def last']
  rcases next?_moved h c with ⟨hx, hy⟩ | ⟨rest, rest', hle, _, hx, hy, h⟩
  · rw [hx, hy]
    exact .read h
  · rw [hx, hy]
    dsimp only
    refine (operand_moved hlast h c).elim .fault fun {t rest₁ _} hlt _ h => ?_
    have hlt : rest₁.length < rest.length := hlt
    dsimp only
    exact (others_moved hlast h c).elim .fault .read
termination_by 10 * ts.length + 2 * c.looseness + 2

theorem term_moved (hlast : last.Moved last') {ts us : List Token}
    (h : List.Forall₂ Moved ts us) : Agrees (term last ts) (term last' us) := by
  rw [term.eq_def last, term.eq_def last']
  match h with
  | .nil => exact .fault (unexpected_moved hlast .nil)
  | .cons (a := t) (b := u) ht h =>
    dsimp only
    rw [ht.kind, ht.value, startsWith_moved h]
    split
    · exact (enclosed_moved hlast h .closeBracket "[" t.start u.start).elim .fault .read
    · exact (enclosed_moved hlast h .closeParen "(" t.start u.start).elim .fault .read
    · split
      · refine .read ?_
        cases h with
        | nil => exact .nil
        | cons _ h => exact h
      · exact (enclosed_moved hlast h .closeParen "(" t.start u.start).elim .fault .read
    · rcases ofLeaf?_moved ht with ⟨hx, hy⟩ | ⟨leaf, hx, hy⟩ | ⟨f, g, hx, hy, hcause⟩
      · rw [hx, hy]
        exact .fault (unexpected_moved hlast (.cons ht h))
      · rw [hx, hy]
        exact .read h
      · rw [hx, hy]
        exact .fault hcause
termination_by 10 * ts.length
decreasing_by all_goals rw [List.length_cons]; omega

theorem enclosed_moved (hlast : last.Moved last') {ts us : List Token}
    (h : List.Forall₂ Moved ts us) (closing : Token.Kind) (opening : String)
    (openedAt openedAt' : Nat) :
    Agrees (enclosed last closing opening openedAt ts)
      (enclosed last' closing opening openedAt' us) := by
  rw [enclosed.eq_def last, enclosed.eq_def last']
  refine (level_moved hlast h .oneOf).elim .fault fun {inner rest _} _ _ h => ?_
  dsimp only
  exact (closed_moved hlast h closing opening openedAt openedAt').elim .fault .read
termination_by 10 * ts.length + 9
decreasing_by simp only [Connective.looseness]; omega

end

theorem leftOver_moved {t u : Token} (hlast : last.Moved last') (ht : t.Moved u)
    (h : List.Forall₂ Moved ts us) :
    (leftOver last t ts).cause = (leftOver last' u us).cause := by
  unfold leftOver
  rw [ht.kind, ht.value]
  split
  · rfl
  · exact unexpected_moved hlast (.cons ht h)

theorem untilEnd_moved (h : List.Forall₂ Moved ts us) :
    Moved ((ts.find? (·.kind = .endMark)).getD (Token.endAt 0))
        ((us.find? (·.kind = .endMark)).getD (Token.endAt 0)) ∧
      List.Forall₂ Moved (ts.takeWhile (·.kind ≠ .endMark)) (us.takeWhile (·.kind ≠ .endMark)) := by
  induction h with
  | nil => exact ⟨⟨rfl, rfl⟩, .nil⟩
  | @cons t u ts us ht _ ih =>
    by_cases hkind : u.kind = .endMark
    · simpa [ht.kind, hkind] using ht
    · simpa [ht.kind, hkind, ht] using ih

theorem ofTokens_moved (h : List.Forall₂ Moved ts us) :
    (ofTokens ts).mapError Fault.cause = (ofTokens us).mapError Fault.cause := by
  obtain ⟨hlast, hbody⟩ := untilEnd_moved h
  unfold ofTokens
  generalize (ts.find? _).getD _ = last at hlast ⊢
  generalize (us.find? _).getD _ = last' at hlast ⊢
  generalize ts.takeWhile _ = ts at hbody ⊢
  generalize us.takeWhile _ = us at hbody ⊢
  dsimp only
  have hnil : ts = [] ↔ us = [] := by
    rw [← List.length_eq_zero_iff, ← List.length_eq_zero_iff, hbody.length_eq]
  by_cases hus : us = []
  · rw [if_pos (hnil.mpr hus), if_pos hus]
  · rw [if_neg (mt hnil.mp hus), if_neg hus]
    refine (level_moved hlast hbody .oneOf).elim ?_ ?_
    · intro f g hcause
      exact congrArg Except.error hcause
    · intro t rest rest' _ _ hrest
      cases hrest with
      | nil => rfl
      | cons ht hrest => exact congrArg Except.error (leftOver_moved hlast ht hrest)

end Tree

theorem Token.moved_of_keys {ts us : List Token} (h : ts.map key = us.map key) :
    List.Forall₂ Moved ts us := by
  have hkeys : List.Forall₂ (fun t u => key t = key u) ts us := by
    have hmap : List.Forall₂ Eq (ts.map key) (us.map key) := by rw [h, List.forall₂_eq_eq_eq]
    rwa [List.forall₂_map_left_iff, List.forall₂_map_right_iff] at hmap
  refine hkeys.imp fun t u hkey => ⟨congrArg Prod.fst hkey, ?_⟩
  exact String.toList_injective (congrArg Prod.snd hkey)

/-- Layout is irrelevant: however the tokens of a text are laid out anew, with blanks between any
two of them, they are scanned as tokens of the same kinds and values, and parsed to the same tree,
or refused for the same cause. -/
theorem layout_is_irrelevant {text : String} {tokens : List Token}
    (h : Token.scan text = .ok tokens) (layout : Token.Layout (Token.withoutEnd tokens).length) :
    (∃ tokens', Token.scan (layout.text (Token.withoutEnd tokens)) = .ok tokens' ∧
      tokens'.map Token.key = tokens.map Token.key) ∧
    ∀ name name' : String,
      (Source.tree ⟨name', layout.text (Token.withoutEnd tokens)⟩).mapError (·.cause) =
        (Source.tree ⟨name, text⟩).mapError (·.cause) := by
  obtain ⟨tokens', hscan, hkeys⟩ := Token.scan_layout h layout
  refine ⟨⟨tokens', hscan, hkeys⟩, fun name name' => ?_⟩
  have houtcome : (Tree.ofTokens tokens').mapError Fault.cause =
      (Tree.ofTokens tokens).mapError Fault.cause :=
    Tree.ofTokens_moved (Token.moved_of_keys hkeys)
  have hlocated : ∀ source : Source, source.tree.mapError (·.cause) =
      (Tree.ofText source.text).mapError Fault.cause := by
    intro source
    unfold Source.tree
    cases Tree.ofText source.text <;> rfl
  rw [hlocated, hlocated, Tree.ofText, Tree.ofText, hscan, h]
  exact houtcome

/-- Ideographic spaces around a mark that needs none. -/
def ideographic : Token.Layout 3 where
  before := []
  behind := [['\u3000'], ['\u3000', '\n'], []]
  length := rfl
  blank := by simp [Text.isBlank]
  apart := by simp

theorem layout_is_irrelevant_ideographic :
    Token.scan "a|'b'" = .ok [⟨.identifier, "a", 0, 1⟩, ⟨.bar, "|", 1, 2⟩, ⟨.string, "b", 2, 5⟩,
      .endAt 5] ∧
    (Source.tree ⟨"v", "a\u3000|\u3000\n'b'"⟩).mapError (·.cause) =
      (Source.tree ⟨"v", "a|'b'"⟩).mapError (·.cause) := by
  have hscan : Token.scan "a|'b'" = .ok [⟨.identifier, "a", 0, 1⟩, ⟨.bar, "|", 1, 2⟩,
      ⟨.string, "b", 2, 5⟩, .endAt 5] := by decide +kernel
  exact ⟨hscan, (layout_is_irrelevant hscan ideographic).2 "v" "v"⟩

end ValueSyntax
