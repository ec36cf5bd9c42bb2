import ValueSyntax.Proofs.Resolve.Ensures
import ValueSyntax.Proofs.Resolve.Values

namespace ValueSyntax

/-- The session that a computation leaves, whether it succeeds or fails. -/
def leaves {α : Type} (x : Resolving α) (s : Session) : Session :=
  match x s with
  | .ok _ s' => s'
  | .error _ s' => s'

@[simp] theorem leaves_map {α β : Type} (f : α → β) (x : Resolving α) (s : Session) :
    leaves (f <$> x) s = leaves x s := by
  show (match EStateM.map f x s with | .ok _ s' => s' | .error _ s' => s') = leaves x s
  unfold leaves EStateM.map
  cases x s <;> rfl

/-- A computation keeps a property of sessions, if it succeeds and if it fails, and it fails only
with certain failures. -/
def Confines {α : Type} (inv : Session → Prop) (fault : Failure → Prop) (x : Resolving α) : Prop :=
  ∀ s, inv s → Ends x s (fun _ s' => inv s') fun e s' => inv s' ∧ fault e

namespace Confines

variable {inv : Session → Prop} {fault : Failure → Prop} {α β : Type}

theorem ensures {x : Resolving α} (h : Confines inv fault x) {s : Session} (hs : inv s) :
    Ensures x s (fun _ s' => inv s') inv :=
  Ends.mono (h s hs) (fun _ _ hs' => hs') fun _ _ hf => hf.1

theorem of_ensures {x : Resolving α} (h : ∀ s, inv s → Ensures x s (fun _ s' => inv s') inv) :
    Confines inv (fun _ => True) x :=
  fun s hs => Ends.mono (h s hs) (fun _ _ hs' => hs') fun _ _ hs' => ⟨hs', trivial⟩

theorem leaves {x : Resolving α} (h : Confines inv fault x) {s : Session} (hs : inv s) :
    inv (leaves x s) := by
  have hends := h s hs
  unfold ValueSyntax.leaves
  split
  · next hx => exact hends.of_ok hx
  · next hx => exact (hends.of_error hx).1

theorem of_leaves {x : Resolving α} (h : ∀ s, inv s → inv (ValueSyntax.leaves x s)) :
    Confines inv (fun _ => True) x := by
  refine .of_ensures fun s hs => ?_
  have hleaves := h s hs
  unfold ValueSyntax.leaves at hleaves
  refine .intro (fun a s' hx => ?_) fun e s' hx => ?_
  · rwa [hx] at hleaves
  · rwa [hx] at hleaves

theorem imp {fault' : Failure → Prop} {x : Resolving α} (h : Confines inv fault x)
    (hf : ∀ e, fault e → fault' e) : Confines inv fault' x :=
  fun s hs => (h s hs).mono (fun _ _ hs' => hs') fun e _ h => ⟨h.1, hf e h.2⟩

theorem pure (a : α) : Confines inv fault (Pure.pure a : Resolving α) := fun _ h => h

theorem throw {e : Failure} (he : fault e) :
    Confines inv fault (MonadExcept.throw e : Resolving α) := fun _ h => ⟨h, he⟩

theorem modify {f : Session → Session} (h : ∀ s, inv s → inv (f s)) :
    Confines inv fault (modify f) :=
  fun s hs => h s hs

theorem bind {x : Resolving β} {f : β → Resolving α} (hx : Confines inv fault x)
    (hf : ∀ b, Confines inv fault (f b)) : Confines inv fault (x >>= f) := by
  intro s hs
  rw [Ends.bind_iff]
  exact (hx s hs).mono (fun b s' hs' => hf b s' hs') fun _ _ h => h

theorem map {x : Resolving β} {f : β → α} (hx : Confines inv fault x) :
    Confines inv fault (f <$> x) := by
  intro s hs
  rw [Ends.map_iff]
  exact hx s hs

theorem get_bind {f : Session → Resolving α} (hf : ∀ s, Confines inv fault (f s)) :
    Confines inv fault (get >>= f) :=
  fun s hs => hf s s hs

theorem mapM {f : β → Resolving α} :
    ∀ l : List β, (∀ b ∈ l, Confines inv fault (f b)) → Confines inv fault (l.mapM f)
  | [], _ => .pure _
  | b :: l, h => by
    rw [List.mapM_cons]
    exact .bind (h b (List.mem_cons_self ..)) fun _ =>
      .bind (mapM l fun b' hb' => h b' (List.mem_cons_of_mem _ hb')) fun _ => .pure _

end Confines

theorem enumerated_eq {k : Catalog} {referrer : String} {c : Connective} {operands : Nat}
    {parts : Resolving (List Shapes)} {combine : List Shapes → Shapes} :
    enumerated k referrer c operands parts combine =
      if operands = 0 then throw (withoutOperands c referrer)
      else if operands ≤ k.settings.operandLimit then combine <$> parts
      else widened (.tooManyOperands c.mark operands k.settings.operandLimit referrer) := by
  unfold enumerated
  split
  · rfl
  · by_cases h : k.settings.operandLimit < operands
    · rw [if_pos h, if_neg (by omega)]
    · rw [if_neg h, if_pos (by omega)]

theorem Tree.shapes_joined {k : Catalog} {expand : String → String → Resolving Shapes}
    {referrer : String} {c : Connective} {operands : List Tree} (hc : c ≠ .juxtaposition) :
    (joined c operands).shapes k expand referrer =
      if operands.length = 0 then throw (withoutOperands c referrer)
      else if c.enumerates k operands.length then
        c.combine <$> shapesEach k expand referrer operands
      else widened (.tooManyOperands c.mark operands.length k.settings.operandLimit referrer) := by
  cases c with
  | juxtaposition => contradiction
  | oneOf => simp [shapes, Connective.enumerates, Connective.combine]
  | anyOrder =>
    rw [shapes, enumerated_eq]
    simp only [Connective.enumerates, decide_eq_true_eq]
    rfl
  | allRequired =>
    rw [shapes, enumerated_eq]
    simp only [Connective.enumerates, decide_eq_true_eq]
    rfl

section Expansion

open Ascending Shapes

variable {k : Catalog} {path : List Entry} {name referrer : String}

theorem expandProperty_of_not_inline (h : ¬ k.settings.inlineProperties) :
    expandProperty k path name referrer = return any := by
  rw [expandProperty, if_pos (by simpa using h)]

theorem expandProperty_of_unknown (hinline : k.settings.inlineProperties)
    (hget : k.properties.get? name = none) :
    expandProperty k path name referrer = widened (.unknownProperty name referrer) := by
  rw [expandProperty, if_neg (by simpa using hinline)]
  split
  · rfl
  · next hget' => cases hget.symm.trans hget'

theorem expandProperty_of_get? {text : String} (hinline : k.settings.inlineProperties)
    (hget : k.properties.get? name = some text) :
    expandProperty k path name referrer =
      if .property name ∈ path then do
        warn (.cyclicProperty name referrer)
        modify (·.openCycle name)
        return any
      else
        ofList <$> resolveEntry k (expandProperty k (.property name :: path)) (.property name)
          text := by
  rw [expandProperty, if_neg (by simpa using hinline)]
  split
  · next hget' => cases hget.symm.trans hget'
  · next hget' =>
    cases hget.symm.trans hget'
    split <;> rfl

end Expansion

/-- Resolving the tree comes to a connective that has no operands. -/
inductive Tree.Lacks (k : Catalog) : Tree → Connective → Prop
  | own {c : Connective} (hc : c ≠ .juxtaposition) : Lacks k (joined c []) c
  | joined {c d : Connective} {operands : List Tree} {t : Tree}
      (hc : c.enumerates k operands.length) (ht : t ∈ operands) (h : Lacks k t d) :
      Lacks k (joined c operands) d
  | group {inner : Tree} {c : Connective} (h : Lacks k inner c) : Lacks k (group inner true) c
  | multiplied {inner : Tree} {m : Multiplier} {c : Connective} (hm : m.max = some 1)
      (h : Lacks k inner c) : Lacks k (multiplied inner m) c

theorem Tree.Supplied.not_lacks {k : Catalog} {t : Tree} {c : Connective} (h : t.Supplied k) :
    ¬ t.Lacks k c := by
  intro hlacks
  induction hlacks with
  | own hc =>
    rw [Supplied] at h
    exact hc (h.1 rfl)
  | joined hc ht _ ih =>
    rw [Supplied] at h
    exact ih (suppliedEach_iff.mp (h.2 hc) _ ht)
  | group _ ih =>
    rw [Supplied] at h
    exact ih h
  | multiplied hm _ ih =>
    rw [Supplied] at h
    exact ih (h hm)

section Trees

variable {inv : Session → Prop} {fault : Failure → Prop} {k : Catalog}
  {expand : String → String → Resolving Shapes} {referrer : String}

theorem Confines.widened {w : Warning} (hwarn : ∀ s, inv s → inv (s.warn w)) :
    Confines inv fault (widened w) :=
  .bind (.modify hwarn) fun _ => .pure _

/-- Resolving the tree in a definition named `referrer` records the warning, or a property that is
expanded before that fails. -/
inductive Tree.Warns (k : Catalog) (referrer : String) : Tree → Warning → Prop
  | unknown {name : String} {range : Option Range} (h : ¬ k.isKnownDataType name) :
      Warns k referrer (reference name range false) (.unknownDataType name referrer)
  | overflow {c : Connective} {operands : List Tree} (hc : c ≠ .juxtaposition)
      (h : ¬ c.enumerates k operands.length) :
      Warns k referrer (joined c operands)
        (.tooManyOperands c.mark operands.length k.settings.operandLimit referrer)
  | joined {c : Connective} {operands : List Tree} {t : Tree} {w : Warning}
      (hc : c.enumerates k operands.length) (ht : t ∈ operands) (h : Warns k referrer t w) :
      Warns k referrer (joined c operands) w
  | group {inner : Tree} {w : Warning} (h : Warns k referrer inner w) :
      Warns k referrer (group inner true) w
  | multiplied {inner : Tree} {m : Multiplier} {w : Warning} (hm : m.max = some 1)
      (h : Warns k referrer inner w) : Warns k referrer (multiplied inner m) w

/-- Expanding the properties that a tree refers to is confined, and so is what resolving the tree
warns of and fails with itself. -/
structure Tree.Confined (k : Catalog) (inv : Session → Prop) (fault : Failure → Prop)
    (expand : String → String → Resolving Shapes) (referrer : String) (t : Tree) : Prop where
  lacks : ∀ c, t.Lacks k c → fault (withoutOperands c referrer)
  warns : ∀ w, t.Warns k referrer w → ∀ s, inv s → inv (s.warn w)
  /-- References that are not inlined count as well: they may be looked up, but nothing is
  expanded. -/
  expands : ∀ name, (k.inlines name → t.Expands k name) → Confines inv fault (expand name referrer)

open ValueSyntax.Tree

theorem Tree.Confined.of_subtree {t u : Tree} (h : t.Confined k inv fault expand referrer)
    (hl : ∀ c, u.Lacks k c → t.Lacks k c)
    (hw : ∀ w, u.Warns k referrer w → t.Warns k referrer w)
    (he : ∀ name, u.Expands k name → t.Expands k name) :
    u.Confined k inv fault expand referrer where
  lacks c hc := h.lacks c (hl c hc)
  warns w hu := h.warns w (hw w hu)
  expands name hn := h.expands name fun hi => he name (hn hi)

theorem Tree.Confined.operand {c : Connective} {operands : List Tree} {t : Tree}
    (h : (joined c operands).Confined k inv fault expand referrer)
    (hc : c.enumerates k operands.length) (ht : t ∈ operands) :
    t.Confined k inv fault expand referrer :=
  h.of_subtree (fun _ => .joined hc ht) (fun _ => .joined hc ht) fun _ => .joined hc ht

mutual

theorem Confines.shapes :
    ∀ {t : Tree}, t.Confined k inv fault expand referrer →
      Confines inv fault (t.shapes k expand referrer)
  | keyword text, _ => by rw [Tree.shapes]; exact .pure _
  | symbol text quoted, _ => by rw [Tree.shapes]; exact .pure _
  | number text unit, _ => by rw [Tree.shapes]; exact .pure _
  | reference name range true, h => by
    rw [Tree.shapes]
    exact h.expands name .reference
  | reference name range false, h => by
    rw [Tree.shapes]
    split
    · exact .pure _
    · next hk => exact .widened (h.warns _ (.unknown hk))
  | function name arguments, _ => by rw [Tree.shapes]; exact .pure _
  | joined .juxtaposition [], _ => by rw [Tree.shapes]; exact .pure _
  | joined .juxtaposition [t], h => by
    rw [Tree.shapes]
    exact Confines.shapes (h.operand rfl (List.mem_singleton_self t))
  | joined .juxtaposition (t :: t' :: ts), _ => by
    rw [Tree.shapes]
    · exact .pure _
    · exact nofun
    · exact nofun
  | joined .oneOf operands, h => Confines.shapesJoined (by decide) h
  | joined .anyOrder operands, h => Confines.shapesJoined (by decide) h
  | joined .allRequired operands, h => Confines.shapesJoined (by decide) h
  | group inner true, h => by
    rw [Tree.shapes]
    exact Confines.shapes (h.of_subtree (fun _ => .group) (fun _ => .group) fun _ => .group)
  | group inner false, _ => by rw [Tree.shapes]; exact .pure _
  | multiplied inner m, h => by
    rw [Tree.shapes]
    split
    · exact .pure _
    · split
      · next hm =>
        exact Confines.shapes (h.of_subtree (fun _ => .multiplied hm) (fun _ => .multiplied hm)
          fun _ => .multiplied hm)
      · exact .pure _

theorem Confines.shapesJoined {c : Connective} (hc : c ≠ .juxtaposition) {operands : List Tree}
    (h : (Tree.joined c operands).Confined k inv fault expand referrer) :
    Confines inv fault ((Tree.joined c operands).shapes k expand referrer) := by
  rw [shapes_joined hc]
  split
  · next hlen =>
    obtain rfl := List.length_eq_zero_iff.mp hlen
    exact .throw (h.lacks c (.own hc))
  · split
    · next henum => exact .map (Confines.shapesEach fun t ht => h.operand henum ht)
    · next henum => exact .widened (h.warns _ (.overflow hc henum))

theorem Confines.shapesEach :
    ∀ {ts : List Tree}, (∀ t ∈ ts, t.Confined k inv fault expand referrer) →
      Confines inv fault (Tree.shapesEach k expand referrer ts)
  | [], _ => .pure _
  | t :: ts, h => by
    rw [Tree.shapesEach]
    exact .bind (Confines.shapes (h t (List.mem_cons_self ..))) fun _ =>
      .bind (Confines.shapesEach fun t' ht' => h t' (List.mem_cons_of_mem _ ht')) fun _ => .pure _

end

end Trees

end ValueSyntax
