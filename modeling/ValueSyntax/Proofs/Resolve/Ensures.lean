import ValueSyntax.Resolve.Request

namespace ValueSyntax

/-- From the session `s`, a computation either returns with `done` or fails with `failed`. -/
def Ends {α : Type} (x : Resolving α) (s : Session) (done : α → Session → Prop)
    (failed : Failure → Session → Prop) : Prop :=
  match x s with
  | .ok a s' => done a s'
  | .error e s' => failed e s'

namespace Ends

variable {α β : Type} {s s' : Session} {done : α → Session → Prop}
  {failed : Failure → Session → Prop}

theorem of_ok {x : Resolving α} {a : α} (h : Ends x s done failed) (hx : x s = .ok a s') :
    done a s' := by
  rwa [Ends, hx] at h

theorem of_error {x : Resolving α} {e : Failure} (h : Ends x s done failed)
    (hx : x s = .error e s') : failed e s' := by
  rwa [Ends, hx] at h

theorem intro {x : Resolving α} (hok : ∀ a s', x s = .ok a s' → done a s')
    (herror : ∀ e s', x s = .error e s' → failed e s') : Ends x s done failed := by
  unfold Ends
  split
  · next h => exact hok _ _ h
  · next h => exact herror _ _ h

theorem mono {x : Resolving α} {done' : α → Session → Prop} {failed' : Failure → Session → Prop}
    (h : Ends x s done failed) (hd : ∀ a s', done a s' → done' a s')
    (hf : ∀ e s', failed e s' → failed' e s') : Ends x s done' failed' :=
  intro (fun _ _ hx => hd _ _ (h.of_ok hx)) (fun _ _ hx => hf _ _ (h.of_error hx))

theorem pure_iff {a : α} : Ends (pure a) s done failed ↔ done a s := Iff.rfl

theorem bind_iff {x : Resolving β} {f : β → Resolving α} :
    Ends (x >>= f) s done failed ↔ Ends x s (fun b s => Ends (f b) s done failed) failed := by
  show Ends (EStateM.bind x f) s done failed ↔ _
  unfold Ends EStateM.bind
  cases x s <;> rfl

theorem map_iff {x : Resolving β} {f : β → α} :
    Ends (f <$> x) s done failed ↔ Ends x s (fun b s => done (f b) s) failed := by
  show Ends (EStateM.map f x) s done failed ↔ _
  unfold Ends EStateM.map
  cases x s <;> rfl

theorem get_iff {done : Session → Session → Prop} : Ends get s done failed ↔ done s s := Iff.rfl

theorem modify_iff {f : Session → Session} {done : Unit → Session → Prop} :
    Ends (modify f) s done failed ↔ done () (f s) := Iff.rfl

theorem closing_iff {x : Resolving α} {entry : Entry} :
    Ends (closing entry x) s done failed ↔
      Ends x s (fun a s => done a (s.close entry)) (fun e s => failed e (s.close entry)) := by
  unfold Ends closing
  cases x s <;> rfl

end Ends

/-- The same where the failure itself does not matter. -/
def Ensures {α : Type} (x : Resolving α) (s : Session) (done : α → Session → Prop)
    (failed : Session → Prop) : Prop :=
  Ends x s done fun _ => failed

namespace Ensures

variable {α β : Type} {s s' : Session} {done : α → Session → Prop} {failed : Session → Prop}

theorem of_ok {x : Resolving α} {a : α} (h : Ensures x s done failed) (hx : x s = .ok a s') :
    done a s' :=
  Ends.of_ok h hx

theorem of_error {x : Resolving α} {e : Failure} (h : Ensures x s done failed)
    (hx : x s = .error e s') : failed s' :=
  Ends.of_error h hx

theorem intro {x : Resolving α} (hok : ∀ a s', x s = .ok a s' → done a s')
    (herror : ∀ e s', x s = .error e s' → failed s') : Ensures x s done failed :=
  Ends.intro hok herror

theorem mono {x : Resolving α} {done' : α → Session → Prop} {failed' : Session → Prop}
    (h : Ensures x s done failed) (hd : ∀ a s', done a s' → done' a s')
    (hf : ∀ s', failed s' → failed' s') : Ensures x s done' failed' :=
  Ends.mono h hd fun _ => hf

theorem imp {x : Resolving α} {done' : α → Session → Prop} (h : Ensures x s done failed)
    (hd : ∀ a s', done a s' → done' a s') : Ensures x s done' failed :=
  h.mono hd fun _ hs => hs

theorem and {x : Resolving α} {done' : α → Session → Prop} {failed' : Session → Prop}
    (h : Ensures x s done failed) (h' : Ensures x s done' failed') :
    Ensures x s (fun a s => done a s ∧ done' a s) (fun s => failed s ∧ failed' s) :=
  intro (fun _ _ hx => ⟨h.of_ok hx, h'.of_ok hx⟩) (fun _ _ hx => ⟨h.of_error hx, h'.of_error hx⟩)

@[simp] theorem pure_iff {a : α} : Ensures (pure a) s done failed ↔ done a s := Iff.rfl

@[simp] theorem bind_iff {x : Resolving β} {f : β → Resolving α} :
    Ensures (x >>= f) s done failed ↔
      Ensures x s (fun b s => Ensures (f b) s done failed) failed :=
  Ends.bind_iff

@[simp] theorem map_iff {x : Resolving β} {f : β → α} :
    Ensures (f <$> x) s done failed ↔ Ensures x s (fun b s => done (f b) s) failed :=
  Ends.map_iff

@[simp] theorem get_iff {done : Session → Session → Prop} :
    Ensures get s done failed ↔ done s s := Iff.rfl

@[simp] theorem set_iff {done : Unit → Session → Prop} :
    Ensures (set s') s done failed ↔ done () s' := Iff.rfl

@[simp] theorem modify_iff {f : Session → Session} {done : Unit → Session → Prop} :
    Ensures (modify f) s done failed ↔ done () (f s) := Iff.rfl

@[simp] theorem closing_iff {x : Resolving α} {entry : Entry} :
    Ensures (closing entry x) s done failed ↔
      Ensures x s (fun a s => done a (s.close entry)) (fun s => failed (s.close entry)) :=
  Ends.closing_iff

/-- Each element comes to what a function gives for it, whatever has been done before it. -/
theorem mapM {inv : Session → Prop} {f : β → Resolving α} {g : β → α}
    (h : ∀ b s, inv s → Ensures (f b) s (fun a s' => inv s' ∧ a = g b) inv) :
    ∀ (l : List β) (s : Session), inv s →
      Ensures (l.mapM f) s (fun as s' => inv s' ∧ as = l.map g) inv
  | [], _, hs => ⟨hs, rfl⟩
  | b :: l, s, hs => by
    rw [List.mapM_cons, bind_iff]
    apply (h b s hs).imp
    rintro a s₁ ⟨hs₁, rfl⟩
    rw [bind_iff]
    apply (mapM h l s₁ hs₁).imp
    rintro as s₂ ⟨hs₂, rfl⟩
    exact ⟨hs₂, rfl⟩

end Ensures

theorem bind_eq_at {α β : Type} {x y : Resolving β} {f g : β → Resolving α} {s : Session}
    (h : x s = y s) (hf : ∀ b s', y s = .ok b s' → f b s' = g b s') :
    (x >>= f) s = (y >>= g) s := by
  show EStateM.bind x f s = EStateM.bind y g s
  unfold EStateM.bind
  rw [h]
  cases hy : y s with
  | ok b s' => exact hf b s' hy
  | error e s' => rfl

theorem map_eq_at {α β : Type} {x y : Resolving β} {s : Session} (h : x s = y s) (f : β → α) :
    (f <$> x) s = (f <$> y) s := by
  show EStateM.map f x s = EStateM.map f y s
  rw [EStateM.map, EStateM.map, h]

theorem get_bind_at {α : Type} (f : Session → Resolving α) (s : Session) :
    (get >>= f) s = f s s :=
  rfl

theorem bind_eq_of_ok {α β : Type} {x : Resolving β} {b : β} {s s' : Session}
    (h : x s = .ok b s') (f : β → Resolving α) : (x >>= f) s = f b s' := by
  show EStateM.bind x f s = _
  rw [EStateM.bind, h]

theorem map_eq_of_ok {α β : Type} {x : Resolving β} {b : β} {s s' : Session}
    (h : x s = .ok b s') (f : β → α) : (f <$> x) s = .ok (f b) s' := by
  show EStateM.map f x s = _
  rw [EStateM.map, h]

/-- From the session, the computation ends with the answer. -/
def Returns {α : Type} (x : Resolving α) (s : Session) (a : α) : Prop := ∃ s', x s = .ok a s'

instance {α : Type} [DecidableEq α] (x : Resolving α) (s : Session) (a : α) :
    Decidable (Returns x s a) :=
  match h : x s with
  | .ok b s' => decidable_of_iff (b = a)
      ⟨fun hb => ⟨s', hb ▸ h⟩, fun ⟨_, ha⟩ => by cases h.symm.trans ha; rfl⟩
  | .error _ _ => .isFalse fun ⟨_, ha⟩ => nomatch h.symm.trans ha

def Fails {α : Type} (x : Resolving α) (s : Session) : Prop := ∃ e s', x s = .error e s'

instance {α : Type} (x : Resolving α) (s : Session) : Decidable (Fails x s) :=
  match h : x s with
  | .ok _ _ => .isFalse fun ⟨_, _, he⟩ => nomatch h.symm.trans he
  | .error e s' => .isTrue ⟨e, s', h⟩

def FailsWith {α : Type} (x : Resolving α) (s : Session) (e : Failure) : Prop :=
  ∃ s', x s = .error e s'

instance {α : Type} (x : Resolving α) (s : Session) (e : Failure) : Decidable (FailsWith x s e) :=
  match h : x s with
  | .ok _ _ => .isFalse fun ⟨_, he⟩ => nomatch h.symm.trans he
  | .error e' s' => decidable_of_iff (e' = e)
      ⟨fun he => ⟨s', he ▸ h⟩, fun ⟨_, he⟩ => by cases h.symm.trans he; rfl⟩

theorem Ensures.fails_iff {α : Type} {x : Resolving α} {s : Session} {p : Prop}
    (h : Ensures x s (fun _ _ => ¬ p) (fun _ => p)) : Fails x s ↔ p := by
  constructor
  · rintro ⟨e, s', hx⟩
    exact h.of_error hx
  · intro hp
    cases hx : x s with
    | ok a s' => exact absurd hp (h.of_ok hx)
    | error e s' => exact ⟨e, s', hx⟩

end ValueSyntax
