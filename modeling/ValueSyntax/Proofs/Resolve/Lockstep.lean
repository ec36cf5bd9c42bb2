import Mathlib.Data.List.Forall2
import ValueSyntax.Resolve.Request

namespace ValueSyntax

/-- Both computations have returned like values, or both have failed with the same failure, and
their sessions are alike. -/
inductive AlikeEnds (alike : Session → Session → Prop) {α β : Type} (like : α → β → Prop) :
    EStateM.Result Failure Session α → EStateM.Result Failure Session β → Prop
  | ok {a : α} {b : β} {s t : Session} (hs : alike s t) (h : like a b) :
      AlikeEnds alike like (.ok a s) (.ok b t)
  | error {e : Failure} {s t : Session} (hs : alike s t) :
      AlikeEnds alike like (.error e s) (.error e t)

/-- From like sessions, two computations end alike. -/
def InStep (alike : Session → Session → Prop) {α β : Type} (like : α → β → Prop)
    (x : Resolving α) (y : Resolving β) : Prop :=
  ∀ s t, alike s t → AlikeEnds alike like (x s) (y t)

namespace InStep

variable {alike : Session → Session → Prop} {α β γ δ : Type} {like : α → β → Prop}
  {like' : γ → δ → Prop}

theorem pure {a : α} {b : β} (h : like a b) : InStep alike like (Pure.pure a) (Pure.pure b) :=
  fun _ _ hs => .ok hs h

theorem throw (e : Failure) :
    InStep alike like (MonadExcept.throw e) (MonadExcept.throw e) :=
  fun _ _ hs => .error hs

theorem modify {f g : Session → Session} (h : ∀ s t, alike s t → alike (f s) (g t)) :
    InStep alike (fun _ _ => True) (modify f) (modify g) :=
  fun s t hs => .ok (h s t hs) trivial

theorem get : InStep alike alike get get := fun _ _ hs => .ok hs hs

theorem bind {x : Resolving α} {y : Resolving β} {f : α → Resolving γ} {g : β → Resolving δ}
    (hxy : InStep alike like x y) (hfg : ∀ a b, like a b → InStep alike like' (f a) (g b)) :
    InStep alike like' (x >>= f) (y >>= g) := by
  intro s t hs
  have h := hxy s t hs
  show AlikeEnds alike like' (EStateM.bind x f s) (EStateM.bind y g t)
  unfold EStateM.bind
  generalize x s = r, y t = r' at h
  cases h with
  | ok hs hab => exact hfg _ _ hab _ _ hs
  | error hs => exact .error hs

theorem map {x : Resolving α} {y : Resolving β} {f : α → γ} {g : β → δ}
    (hxy : InStep alike like x y) (hfg : ∀ a b, like a b → like' (f a) (g b)) :
    InStep alike like' (f <$> x) (g <$> y) := by
  intro s t hs
  have h := hxy s t hs
  show AlikeEnds alike like' (EStateM.map f x s) (EStateM.map g y t)
  unfold EStateM.map
  generalize x s = r, y t = r' at h
  cases h with
  | ok hs hab => exact .ok hs (hfg _ _ hab)
  | error hs => exact .error hs

theorem closing {x : Resolving α} {y : Resolving β} {entry : Entry}
    (hclose : ∀ s t, alike s t → alike (s.close entry) (t.close entry))
    (hxy : InStep alike like x y) :
    InStep alike like (closing entry x) (closing entry y) := by
  intro s t hs
  have h := hxy s t hs
  unfold ValueSyntax.closing
  generalize x s = r, y t = r' at h
  cases h with
  | ok hs hab => exact .ok (hclose _ _ hs) hab
  | error hs => exact .error (hclose _ _ hs)

theorem mapM {f g : γ → Resolving α} (h : ∀ c, InStep alike Eq (f c) (g c)) :
    ∀ l : List γ, InStep alike Eq (l.mapM f) (l.mapM g)
  | [] => .pure rfl
  | c :: l => by
    rw [List.mapM_cons, List.mapM_cons]
    refine .bind (h c) fun a b hab => .bind (mapM h l) fun as bs habs => .pure ?_
    rw [hab, habs]

end InStep

/-- Two memories of the same keys, with like values. -/
def Memo.Like {κ α β : Type} (like : α → β → Prop) (l : Memo κ α) (m : Memo κ β) : Prop :=
  List.Forall₂ (fun e e' => e.1 = e'.1 ∧ like e.2 e'.2) l m

theorem Memo.Like.lookup {κ α β : Type} [DecidableEq κ] {like : α → β → Prop} {l : Memo κ α}
    {m : Memo κ β} (h : l.Like like m) (key : κ) :
    (l.lookup key = none ∧ m.lookup key = none) ∨
      ∃ a b, l.lookup key = some a ∧ m.lookup key = some b ∧ like a b := by
  induction h with
  | nil => exact Or.inl ⟨rfl, rfl⟩
  | @cons e e' l m he _ ih =>
    obtain ⟨j, a⟩ := e
    obtain ⟨j', b⟩ := e'
    obtain ⟨hj, hab⟩ := he
    cases hj
    rw [Table.lookup_cons, Table.lookup_cons]
    by_cases hkey : key = j
    · rw [if_pos hkey, if_pos hkey]
      exact Or.inr ⟨a, b, rfl, rfl, hab⟩
    · rw [if_neg hkey, if_neg hkey]
      exact ih

end ValueSyntax
