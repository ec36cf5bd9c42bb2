import ValueSyntax.Proofs.Tree.Binding

namespace ValueSyntax

open ValueSyntax.Tree

/-- The list has these tokens up to its first end mark. -/
structure UpToEnd (tokens front : List Token) (stop : Token) : Prop where
  split : ∃ behind, tokens = front ++ stop :: behind
  front : ∀ t ∈ front, t.kind ≠ .endMark
  stop : stop.kind = .endMark

/-- These tokens stand from the position on. -/
structure Stands (front : List Token) (pos : Nat) (ts : List Token) : Prop where
  le : pos ≤ front.length
  drop : front.drop pos = ts

namespace Stands

variable {front ts : List Token} {t : Token} {pos : Nat}

theorem length_add (h : Stands front pos ts) : pos + ts.length = front.length := by
  have hle := h.le
  rw [← h.drop, List.length_drop]
  omega

theorem lt (h : Stands front pos (t :: ts)) : pos < front.length := by
  have hlength := h.length_add
  rw [List.length_cons] at hlength
  omega

theorem getElem? (h : Stands front pos (t :: ts)) : front[pos]? = some t := by
  rw [← List.head?_drop, h.drop, List.head?_cons]

theorem tail (h : Stands front pos (t :: ts)) : Stands front (pos + 1) ts where
  le := h.lt
  drop := by rw [← List.tail_drop, h.drop, List.tail_cons]

end Stands

namespace UpToEnd

variable {tokens front ts : List Token} {stop t : Token} {pos : Nat}

theorem length_lt (h : UpToEnd tokens front stop) : front.length < tokens.length := by
  obtain ⟨behind, rfl⟩ := h.split
  simp

theorem tokenAt_eq (h : UpToEnd tokens front stop) (hs : Stands front pos ts) :
    Track.tokenAt tokens pos = ts.headD stop := by
  have hlt := h.length_lt
  have hle := hs.le
  have hmin : min pos (tokens.length - 1) = pos := by omega
  obtain ⟨behind, rfl⟩ := h.split
  rw [Track.tokenAt, hmin]
  cases ts with
  | nil =>
    have hpos : pos = front.length := by simpa using hs.length_add
    simp [hpos]
  | cons t ts =>
    rw [List.getElem?_append_left hs.lt, hs.getElem?]
    rfl

theorem ne_endMark (h : UpToEnd tokens front stop) (hs : Stands front pos (t :: ts)) :
    t.kind ≠ .endMark :=
  h.front t (List.mem_of_getElem? hs.getElem?)

theorem misplaced_eq (h : UpToEnd tokens front stop) (hs : Stands front pos ts) :
    misplaced (ts.headD stop) = unexpected stop ts := by
  cases ts with
  | nil => exact if_pos h.stop
  | cons t ts => exact if_neg (h.ne_endMark hs)

end UpToEnd

/-- From the position the walk comes to what the parser does, and goes on as `next` says with what
is read. -/
inductive Leads {α β : Type} {P : α × List Token → Prop} (front : List Token) (pos : Nat)
    (next : α → Walk β) (x : Walk β) : Except Fault {r // P r} → Prop
  | fault {f : Fault} {pos' : Nat} (hle : pos ≤ pos') (hend : pos' ≤ front.length)
      (h : x.outcome pos = some (.error f, pos')) : Leads front pos next x (.error f)
  | read {a : α} {rest : List Token} {hp : P (a, rest)} {pos' : Nat} (hle : pos ≤ pos')
      (hs : Stands front pos' rest) (h : x.outcome pos = (next a).outcome pos') :
      Leads front pos next x (.ok ⟨(a, rest), hp⟩)

namespace Leads

variable {α β : Type} {P : α × List Token → Prop} {tokens front ts : List Token} {stop t : Token}
  {pos pos' : Nat} {next : α → Walk β} {x x' : Walk β} {y : Except Fault {r // P r}}

@[elab_as_elim]
theorem elim {motive : Except Fault {r // P r} → Prop} (h : Leads front pos next x y)
    (fault : ∀ {f : Fault} {pos' : Nat}, pos ≤ pos' → pos' ≤ front.length →
      x.outcome pos = some (.error f, pos') → motive (.error f))
    (read : ∀ {a : α} {rest : List Token} {hp : P (a, rest)} {pos' : Nat}, Reads y a rest →
      pos ≤ pos' → Stands front pos' rest → x.outcome pos = (next a).outcome pos' →
        motive (.ok ⟨(a, rest), hp⟩)) : motive y := by
  cases h with
  | fault hle hend h => exact fault hle hend h
  | read hle hs h => exact read ⟨_, rfl⟩ hle hs h

theorem of_outcome (heq : x.outcome pos = x'.outcome pos') (hle : pos ≤ pos')
    (h : Leads front pos' next x' y) : Leads front pos next x y := by
  cases h with
  | fault hle' hend h => exact .fault (hle.trans hle') hend (heq.trans h)
  | read hle' hs h => exact .read (hle.trans hle') hs (heq.trans h)

theorem bind_pure {x : Walk α} (h : Leads front pos pure x y) (f : α → Walk β) :
    Leads front pos f (x >>= f) y := by
  cases h with
  | fault hle hend h => exact .fault hle hend (Walk.outcome_bind_of_error h f)
  | read hle hs h => exact .read hle hs (Walk.outcome_bind_of_ok h f)

theorem throw (hs : Stands front pos ts) (f : Fault) :
    Leads front pos next (throw f) (.error f : Except Fault {r // P r}) :=
  .fault (Nat.le_refl _) hs.le (Walk.outcome_throw f pos)

theorem pure {a : α} (hs : Stands front pos ts) (hp : P (a, ts)) :
    Leads front pos Pure.pure (Pure.pure a) (.ok ⟨(a, ts), hp⟩) :=
  .read (Nat.le_refl _) hs rfl

theorem here {f : Token → Walk β} (hu : UpToEnd tokens front stop) (hs : Stands front pos ts)
    (h : Leads front pos next (f (ts.headD stop)) y) :
    Leads front pos next (Track.here tokens >>= f) y := by
  rw [← hu.tokenAt_eq hs] at h
  exact .of_outcome (Track.outcome_here_bind tokens f pos) (Nat.le_refl _) h

theorem here_cons {f : Token → Walk β} (hu : UpToEnd tokens front stop)
    (hs : Stands front pos (t :: ts)) (h : Leads front pos next (f t) y) :
    Leads front pos next (Track.here tokens >>= f) y :=
  .here hu hs h

theorem step {f : Unit → Walk β} (hu : UpToEnd tokens front stop) (hs : Stands front pos (t :: ts))
    (h : Leads front (pos + 1) next (f ()) y) :
    Leads front pos next (Track.step tokens >>= f) y := by
  have hstep := Track.outcome_step tokens (hs.lt.trans hu.length_lt)
  exact .of_outcome (Walk.outcome_bind_of_ok hstep f) (Nat.le_succ pos) h

end Leads

section Counts

variable {tokens front ts : List Token} {stop : Token} {pos : Nat}

theorem leads_closing (hu : UpToEnd tokens front stop) (hs : Stands front pos ts)
    (kind : Token.Kind) (opening : String) (openedAt : Nat) :
    Leads front pos pure (Track.closing tokens kind opening openedAt)
      (closed stop kind opening openedAt ts) := by
  refine .here hu hs ?_
  match ts with
  | [] =>
    rw [List.headD_nil, if_pos hu.stop]
    exact .throw hs _
  | t :: rest =>
    rw [List.headD_cons, if_neg (hu.ne_endMark hs), closed]
    split
    · exact .step (f := pure) hu hs (.pure hs.tail _)
    · rw [← hu.misplaced_eq hs]
      exact .throw hs _

theorem leads_repeatCount (hu : UpToEnd tokens front stop) (hs : Stands front pos ts) :
    Leads front pos pure (Track.repeatCount tokens) (repeatCount stop ts) := by
  refine .here hu hs ?_
  match ts with
  | [] =>
    rw [List.headD_nil, if_neg (by simp [hu.stop])]
    exact .throw hs _
  | t :: rest =>
    rw [List.headD_cons, repeatCount]
    split
    · refine .step hu hs ?_
      cases Number.count32? t.value.toList with
      | none => exact .throw hs.tail _
      | some n => exact .pure hs.tail _
    · exact .throw hs _

theorem UpToEnd.startsWith_iff (hu : UpToEnd tokens front stop) (kind : Token.Kind)
    (hkind : kind ≠ .endMark) : startsWith kind ts ↔ (ts.headD stop).kind = kind := by
  cases ts with
  | nil => simp [startsWith, hu.stop, hkind.symm]
  | cons t ts => simp

theorem leads_repeatMaximum (hu : UpToEnd tokens front stop) (hs : Stands front pos ts)
    (min : Nat) :
    Leads front pos pure (Track.repeatMaximum tokens min) (repeatMaximum stop min ts) := by
  refine .here hu hs ?_
  match ts with
  | [] =>
    rw [List.headD_nil, if_neg (by simp [hu.stop])]
    exact .pure hs _
  | t :: rest =>
    rw [List.headD_cons, repeatMaximum]
    split
    · refine .step hu hs (.here hu hs.tail ?_)
      simp only [hu.startsWith_iff .number (by decide)]
      split
      · exact ((leads_repeatCount hu hs.tail).bind_pure _).elim .fault fun _ => .read
      · exact .pure hs.tail _
    · exact .pure hs _

theorem leads_counted (hu : UpToEnd tokens front stop) (hs : Stands front pos ts)
    (separator : Separator) (openedAt : Nat) :
    Leads front pos pure (Track.counted tokens separator openedAt)
      (counted stop separator openedAt ts) := by
  rw [counted]
  refine ((leads_repeatCount hu hs).bind_pure _).elim .fault fun {min} _ _ _ _ hle hs h => ?_
  refine .of_outcome h hle ?_
  dsimp only
  refine ((leads_repeatMaximum hu hs min).bind_pure _).elim .fault
    fun {max} _ _ _ _ hle hs h => ?_
  refine .of_outcome h hle ?_
  dsimp only
  refine ((leads_closing hu hs .closeCurly "\x7b" openedAt).bind_pure _).elim .fault
    fun _ hle hs h => ?_
  refine .of_outcome h hle ?_
  dsimp only
  split
  · exact .throw hs _
  · exact .pure hs _

theorem leads_braced (hu : UpToEnd tokens front stop) (hs : Stands front pos ts)
    (ho : startsWith .openCurly ts) (separator : Separator) :
    Leads front pos pure (Track.braced tokens separator) (braced stop separator ts) := by
  refine .here hu hs ?_
  rw [if_pos ((hu.startsWith_iff .openCurly (by decide)).mp ho)]
  match ts, ho with
  | t :: rest, _ =>
    rw [List.headD_cons, braced]
    exact .step hu hs ((leads_counted hu hs.tail separator t.start).elim .fault fun _ => .read)

theorem leads_hash (hu : UpToEnd tokens front stop) {t : Token} (hs : Stands front pos (t :: ts))
    (operand : Tree) (hk : t.kind = .hash) :
    ∃ y : Except Fault (Shorter Multiplier (t :: ts)),
      multiplier? stop operand (t :: ts) = y.map some ∧
        Leads front pos pure (Track.multiplier tokens operand) y := by
  have hbrace : startsWith .openCurly ts ↔ (ts.headD stop).kind = .openCurly :=
    hu.startsWith_iff _ (by decide)
  rw [multiplier?, hk]
  dsimp only
  by_cases ho : startsWith .openCurly ts
  · have hleads : Leads front pos pure (Track.multiplier tokens operand)
        (braced stop .comma ts) := by
      refine .here_cons hu hs ?_
      rw [hk]
      refine .step hu hs (.here hu hs.tail ?_)
      rw [if_pos (hbrace.mp ho)]
      exact leads_braced hu hs.tail ho .comma
    rw [if_pos ho]
    generalize braced stop .comma ts = x at hleads ⊢
    cases hleads with
    | fault hle hend h => exact ⟨.error _, rfl, .fault hle hend h⟩
    | @read m rest hlt pos' hle hs' h =>
      exact ⟨.ok ⟨(m, rest), Nat.lt_succ_of_lt hlt⟩, rfl, .read hle hs' h⟩
  · rw [if_neg ho]
    refine ⟨.ok ⟨(_, ts), Nat.lt_succ_self _⟩, rfl, .here_cons hu hs ?_⟩
    rw [hk]
    refine .step hu hs (.here hu hs.tail ?_)
    rw [if_neg (mt hbrace.mpr ho)]
    exact .pure hs.tail _

theorem leads_multiplier (hu : UpToEnd tokens front stop) (hs : Stands front pos ts)
    (operand : Tree) (h : (ts.headD stop).kind.isMultiplier) :
    ∃ y : Except Fault (Shorter Multiplier ts), multiplier? stop operand ts = y.map some ∧
      Leads front pos pure (Track.multiplier tokens operand) y := by
  match ts with
  | [] => simp [hu.stop, Token.Kind.isMultiplier] at h
  | t :: rest =>
    rw [multiplier?]
    split
    -- A mark alone.
    iterate 3
      · next hk =>
        refine ⟨.ok ⟨(_, rest), Nat.lt_succ_self _⟩, rfl, .here_cons hu hs ?_⟩
        rw [hk]
        exact .step hu hs (.pure hs.tail _)
    · next hk =>
      split
      · next hb =>
        refine ⟨.ok ⟨(_, rest), Nat.lt_succ_self _⟩, rfl, .here_cons hu hs ?_⟩
        rw [hk, hb]
        exact .step hu hs (.pure hs.tail _)
      · next hb =>
        refine ⟨.error _, rfl, .here_cons hu hs ?_⟩
        rw [hk]
        dsimp only
        rw [if_neg hb]
        exact .throw hs _
    · next hk =>
      have hleads := leads_hash hu hs operand hk
      rw [multiplier?, hk] at hleads
      exact hleads
    · next hk =>
      refine ⟨braced stop .space (t :: rest), ?_, .here_cons hu hs ?_⟩
      · cases braced stop .space (t :: rest) <;> rfl
      · rw [hk]
        exact leads_braced hu hs (by simpa using hk) .space
    · simp_all [Token.Kind.isMultiplier]

end Counts

section Onward

variable {tokens front ts : List Token} {stop : Token} {pos s : Nat} {left : Tree} {c : Connective}

theorem outcome_onward_of_le (hu : UpToEnd tokens front stop) (hs : Stands front pos ts)
    (h : (ts.headD stop).kind.strength ≤ s) :
    (Track.onward tokens s left).outcome pos = some (.ok left, pos) := by
  rw [Track.onward, Track.outcome_here_bind, hu.tokenAt_eq hs, if_neg (Nat.not_lt.mpr h)]
  rfl

theorem outcome_onward_of_lt (hu : UpToEnd tokens front stop) (hs : Stands front pos ts)
    (h : s < (ts.headD stop).kind.strength) :
    (Track.onward tokens s left).outcome pos =
      (Track.extended tokens left >>= Track.onward tokens s).outcome pos := by
  rw [Track.onward, Track.outcome_here_bind, hu.tokenAt_eq hs, if_pos h]

theorem outcome_extended_of_multiplier (hu : UpToEnd tokens front stop) (hs : Stands front pos ts)
    (h : (ts.headD stop).kind.isMultiplier) :
    (Track.extended tokens left).outcome pos =
      (Track.multiplier tokens left >>= fun m => pure (multiplied left m)).outcome pos := by
  rw [Track.extended, Track.outcome_here_bind, hu.tokenAt_eq hs,
    Token.Kind.connective?_of_isMultiplier h]

theorem outcome_extended_of_connective (hu : UpToEnd tokens front stop) (hs : Stands front pos ts)
    (h : (ts.headD stop).kind.connective? = some c) :
    (Track.extended tokens left).outcome pos =
      (Track.mark tokens c >>= fun _ => Track.phrase tokens c.strength >>=
        fun right => pure (addOperand c left right)).outcome pos := by
  rw [Track.extended, Track.outcome_here_bind, hu.tokenAt_eq hs, h]

theorem outcome_mark (hu : UpToEnd tokens front stop) (hs : Stands front pos ts)
    {ts₁ : List Token} {hle : ts₁.length ≤ ts.length} (h : c.next? ts = some ⟨((), ts₁), hle⟩) :
    (ts.headD stop).kind.connective? = some c ∧ ∃ pos₁, pos ≤ pos₁ ∧ Stands front pos₁ ts₁ ∧
      (Track.mark tokens c).outcome pos = some (.ok (), pos₁) := by
  rcases Connective.next?_eq_some.mp ⟨hle, h⟩ with
    ⟨kind, mark, hk, rfl, hmark⟩ | ⟨hk, rfl, t, ht, hstarts⟩
  · refine ⟨Connective.connective?_eq_some_iff.mpr (Or.inl (hmark ▸ hk)), pos + 1, Nat.le_succ _,
      hs.tail, ?_⟩
    rw [Track.mark, hk]
    exact Track.outcome_step tokens (hs.lt.trans hu.length_lt)
  · obtain ⟨rest, rfl⟩ := List.head?_eq_some_iff.mp ht
    refine ⟨Connective.connective?_eq_some_iff.mpr (Or.inr ⟨hk, hstarts⟩), pos, Nat.le_refl _,
      hs, ?_⟩
    rw [Track.mark, hk]
    rfl

/-- A multiplier binds tighter than any connective. -/
theorem outcome_onward_of_multiplier (hu : UpToEnd tokens front stop) (hs : Stands front pos ts)
    (hle : s ≤ 4) (h : (ts.headD stop).kind.isMultiplier) (left : Tree) :
    (Track.onward tokens s left).outcome pos = (Track.multiplier tokens left >>=
      fun m => Track.onward tokens s (multiplied left m)).outcome pos := by
  have hlt : s < (ts.headD stop).kind.strength := by
    rw [Token.Kind.strength_of_isMultiplier h]
    exact Nat.lt_succ_of_le hle
  rw [outcome_onward_of_lt hu hs hlt,
    Walk.outcome_bind_congr (outcome_extended_of_multiplier hu hs h)]
  simp only [bind_assoc, pure_bind]

theorem outcome_onward_of_next? (hu : UpToEnd tokens front stop) (hs : Stands front pos ts)
    (hlt : s < c.strength) {ts₁ : List Token} {hle : ts₁.length ≤ ts.length}
    (h : c.next? ts = some ⟨((), ts₁), hle⟩) :
    ∃ pos₁, pos ≤ pos₁ ∧ Stands front pos₁ ts₁ ∧ ∀ left,
      (Track.onward tokens s left).outcome pos = (Track.phrase tokens c.strength >>=
        fun right => Track.onward tokens s (addOperand c left right)).outcome pos₁ := by
  obtain ⟨hc, pos₁, hle₁, hs₁, hmark⟩ := outcome_mark hu hs h
  refine ⟨pos₁, hle₁, hs₁, fun left => ?_⟩
  rw [outcome_onward_of_lt hu hs (by rwa [Token.Kind.strength_of_connective? hc]),
    Walk.outcome_bind_congr (outcome_extended_of_connective hu hs hc)]
  simp only [bind_assoc, pure_bind]
  exact Walk.outcome_bind_of_ok hmark _

theorem leads_closing_cons {α : Type} {P : α × List Token → Prop} (hu : UpToEnd tokens front stop)
    {t : Token} (hs : Stands front pos (t :: ts)) (opening : String) (openedAt : Nat) {a : α}
    (hp : P (a, ts)) :
    Leads front pos pure (Track.closing tokens t.kind opening openedAt >>= fun _ => pure a)
      (.ok ⟨(a, ts), hp⟩) := by
  have hleads := (leads_closing hu hs t.kind opening openedAt).bind_pure fun _ => pure a
  rw [closed, if_pos rfl] at hleads
  cases hleads with
  | read hle hs h => exact .read hle hs h

theorem term_of_leaf {last t : Token} {rest : List Token} (hbracket : t.kind ≠ .openBracket)
    (hparen : t.kind ≠ .openParen) (hfunction : t.kind ≠ .function) :
    term last (t :: rest) =
      match ofLeaf? t with
      | some (.ok leaf) => .ok ⟨(leaf, rest), Nat.lt_succ_self _⟩
      | some (.error fault) => .error fault
      | none => .error (unexpected last (t :: rest)) := by
  rw [term.eq_def]
  dsimp only
  split
  · next hk => exact absurd hk hbracket
  · next hk => exact absurd hk hparen
  · next hk => exact absurd hk hfunction
  · rfl

theorem leads_leaf (hu : UpToEnd tokens front stop) {t : Token} (hs : Stands front pos (t :: ts))
    (hbracket : t.kind ≠ .openBracket) (hparen : t.kind ≠ .openParen)
    (hfunction : t.kind ≠ .function) :
    Leads front pos pure
      (match ofLeaf? t with
        | some leaf => do
          Track.step tokens
          liftExcept leaf
        | none => throw (misplaced t)) (term stop (t :: ts)) := by
  rw [term_of_leaf hbracket hparen hfunction]
  cases ofLeaf? t with
  | none =>
    dsimp only
    rw [← hu.misplaced_eq hs]
    exact .throw hs _
  | some leaf =>
    cases leaf with
    | error f => exact .step (f := fun _ => liftExcept (.error f)) hu hs (.throw hs.tail _)
    | ok leaf => exact .step (f := fun _ => liftExcept (.ok leaf)) hu hs (.pure hs.tail _)

/-- Where nothing at hand binds tighter, the walk does not go on. -/
theorem Leads.exact {P : Tree × List Token → Prop} {x : Walk Tree} {y : Except Fault {r // P r}}
    (hu : UpToEnd tokens front stop) (h : Leads front pos (Track.onward tokens s) x y)
    (hy : ∀ t rest, Reads y t rest → (rest.headD stop).kind.strength ≤ s) :
    Leads front pos Pure.pure x y := by
  cases h with
  | fault hle hend h => exact .fault hle hend h
  | read hle hs h =>
    exact .read hle hs (h.trans (outcome_onward_of_le hu hs (hy _ _ ⟨_, rfl⟩)))

theorem UpToEnd.strength_le (hu : UpToEnd tokens front stop) (h : EndsOperand c ts) :
    (ts.headD stop).kind.strength ≤ c.strength := by
  cases ts with
  | nil =>
    rw [List.headD_nil, hu.stop]
    exact Nat.zero_le _
  | cons t ts => exact h.strength_le

theorem UpToEnd.strength_eq_zero (hu : UpToEnd tokens front stop) (h : Ends .oneOf ts) :
    (ts.headD stop).kind.strength = 0 := by
  cases ts with
  | nil => rw [List.headD_nil, hu.stop, Token.Kind.strength_endMark]
  | cons t ts => exact Nat.lt_one_iff.mp h.strength_lt

/-- After an operand of a connective nothing binds tighter than the connective. -/
theorem Leads.operand {x : Walk Tree} (hu : UpToEnd tokens front stop)
    (h : Leads front pos (Track.onward tokens c.strength) x (operand stop c ts)) :
    Leads front pos Pure.pure x (Tree.operand stop c ts) :=
  h.exact hu fun _ _ hreads => hu.strength_le (.of_operand hreads)

/-- After a whole definition nothing binds. -/
theorem Leads.whole {x : Walk Tree} (hu : UpToEnd tokens front stop)
    (h : Leads front pos (Track.onward tokens 0) x (level stop .oneOf ts)) :
    Leads front pos Pure.pure x (level stop .oneOf ts) :=
  h.exact hu fun _ _ hreads =>
    Nat.le_of_eq (hu.strength_eq_zero (.of_level EndsOperand.of_operand hreads))

end Onward

section Phrases

variable {tokens front : List Token} {stop : Token}

theorem leads_multipliedBy (hu : UpToEnd tokens front stop) {ts : List Token} {pos s : Nat}
    (hs : Stands front pos ts) (hle : s ≤ 4) (operand : Tree) :
    Leads front pos (Track.onward tokens s) (Track.onward tokens s operand)
      (multipliedBy stop operand ts) := by
  rw [multipliedBy]
  by_cases hm : (ts.headD stop).kind.isMultiplier
  · obtain ⟨y, hy, hleads⟩ := leads_multiplier hu hs operand hm
    have hgo := outcome_onward_of_multiplier hu hs hle hm operand
    rw [hy]
    refine Leads.elim (.of_outcome hgo (Nat.le_refl _) (hleads.bind_pure _)) .fault
      fun {m rest _ pos₁} hreads hle₁ hs₁ h => ?_
    have hlt := hreads.length_lt
    dsimp only [Except.map]
    refine .of_outcome h hle₁ ?_
    exact (leads_multipliedBy hu hs₁ hle (multiplied operand m)).elim .fault fun _ => .read
  · have hnone : multiplier? stop operand ts = .ok none := by
      refine multiplier?_eq_none.mpr fun t ht => ?_
      obtain ⟨rest, rfl⟩ := List.head?_eq_some_iff.mp ht
      exact Bool.not_eq_true _ ▸ hm
    rw [hnone]
    exact .read (Nat.le_refl _) hs rfl
termination_by ts.length

mutual

-- The induction is the one by which the parser ends. What is read for a strength goes on with
-- anything that binds tighter, so each statement leaves that to the walk after what is read.

theorem leads_level (hu : UpToEnd tokens front stop) {ts : List Token} {pos s : Nat}
    {c : Connective} (hs : Stands front pos ts) (hlt : s < c.strength) :
    Leads front pos (Track.onward tokens s) (Track.phrase tokens s) (level stop c ts) := by
  rw [level]
  refine (leads_operand hu hs (Nat.le_of_lt hlt)).elim .fault
    fun {first ts₁ _ pos₁} hreads hle hs₁ h => ?_
  have hshorter := hreads.length_lt
  dsimp only
  -- Were the operand a node of the same connective, the walk would add to it.
  have hfirst : ∀ operands, first ≠ joined c operands := by
    obtain ⟨used, -, hderives⟩ := derives_operand hreads
    refine hderives.ne_joined ?_
    cases c <;> intro d hd <;> cases hd <;> decide
  refine .of_outcome h hle ?_
  refine (leads_others hu hs₁ hlt first).elim .fault fun {more _ _ _} _ hle hs₂ h => ?_
  rw [foldl_addOperand hfirst] at h
  exact .read hle hs₂ h
termination_by 10 * ts.length + 2 * c.looseness + 2

theorem leads_operand (hu : UpToEnd tokens front stop) {ts : List Token} {pos s : Nat}
    {c : Connective} (hs : Stands front pos ts) (hle : s ≤ c.strength) :
    Leads front pos (Track.onward tokens s) (Track.phrase tokens s) (operand stop c ts) := by
  rw [operand.eq_def]
  match c with
  | .oneOf => exact leads_level (c := .anyOrder) hu hs (Nat.lt_succ_of_le hle)
  | .anyOrder => exact leads_level (c := .allRequired) hu hs (Nat.lt_succ_of_le hle)
  | .allRequired => exact leads_level (c := .juxtaposition) hu hs (Nat.lt_succ_of_le hle)
  | .juxtaposition =>
    rw [Track.phrase]
    refine ((leads_term hu hs).bind_pure (Track.onward tokens s)).elim .fault
      fun {t _ _ _} _ hle₁ hs₁ h => ?_
    dsimp only
    refine .of_outcome h hle₁ ?_
    exact (leads_multipliedBy hu hs₁ hle t).elim .fault fun _ => .read
termination_by 10 * ts.length + 2 * c.looseness + 1
decreasing_by all_goals simp only [Connective.looseness]; omega

/-- The walk adds operands one by one, the parser all at once. -/
theorem leads_others (hu : UpToEnd tokens front stop) {ts : List Token} {pos s : Nat}
    {c : Connective} (hs : Stands front pos ts) (hlt : s < c.strength) (left : Tree) :
    Leads front pos (fun more => Track.onward tokens s (more.foldl (addOperand c) left))
      (Track.onward tokens s left) (others stop c ts) := by
  rw [others]
  cases hnext : c.next? ts with
  | none => exact .read (Nat.le_refl _) hs rfl
  | some r =>
    obtain ⟨⟨⟨⟩, ts₁⟩, hle⟩ := r
    have hle : ts₁.length ≤ ts.length := hle
    obtain ⟨pos₁, hle₁, hs₁, hgo⟩ := outcome_onward_of_next? hu hs hlt hnext
    -- Read for its own strength, an operand ends where the parser ends it.
    have hoperand := (leads_operand hu hs₁ (Nat.le_refl c.strength)).operand hu
    dsimp only
    refine Leads.elim (.of_outcome (hgo left) hle₁ (hoperand.bind_pure _)) .fault
      fun {t ts₂ _ pos₂} hreads hle₂ hs₂ h => ?_
    have hshorter := hreads.length_lt
    dsimp only
    refine .of_outcome h hle₂ ?_
    exact (leads_others hu hs₂ hlt (addOperand c left t)).elim .fault fun _ hle hs h =>
      .read hle hs h
termination_by 10 * ts.length + 2 * c.looseness + 2

theorem leads_term (hu : UpToEnd tokens front stop) {ts : List Token} {pos : Nat}
    (hs : Stands front pos ts) :
    Leads front pos pure (Track.term tokens) (term stop ts) := by
  rw [Track.term]
  refine .here hu hs ?_
  match ts with
  | [] =>
    have hnone : ofLeaf? stop = none := by simp [ofLeaf?, hu.stop]
    rw [List.headD_nil, hu.stop, hnone, term]
    dsimp only
    rw [← hu.misplaced_eq hs]
    exact .throw hs _
  | t :: rest =>
    rw [List.headD_cons]
    split
    · next hk =>
      rw [term, hk]
      refine .step hu hs ?_
      exact (leads_enclosed hu hs.tail .closeBracket "[" t.start _).elim .fault fun _ => .read
    · next hk =>
      rw [term, hk]
      refine .step hu hs ?_
      exact (leads_enclosed hu hs.tail .closeParen "(" t.start _).elim .fault fun _ => .read
    · next hk =>
      rw [term, hk]
      refine .step hu hs (.here hu hs.tail ?_)
      dsimp only
      have hclosing : startsWith .closeParen rest ↔ (rest.headD stop).kind = .closeParen :=
        hu.startsWith_iff _ (by decide)
      by_cases hc : startsWith .closeParen rest
      · rw [if_pos (hclosing.mp hc), pure_bind, if_pos hc]
        match rest, hc with
        | c :: rest, hc =>
          have hc : c.kind = .closeParen := by simpa using hc
          rw [← hc]
          exact leads_closing_cons hu hs.tail "(" t.start _
      · rw [if_neg (mt hclosing.mpr hc), if_neg hc]
        exact (leads_enclosed hu hs.tail .closeParen "(" t.start _).elim .fault fun _ => .read
    · next hbracket hparen hfunction =>
      exact leads_leaf hu hs hbracket hparen hfunction
termination_by 10 * ts.length
decreasing_by all_goals rw [List.length_cons]; omega

theorem leads_enclosed (hu : UpToEnd tokens front stop) {ts : List Token} {pos : Nat}
    (hs : Stands front pos ts) (kind : Token.Kind) (opening : String) (openedAt : Nat)
    (f : Tree → Tree) :
    Leads front pos (fun inner => pure (f inner))
      (do
        let inner ← Track.phrase tokens 0
        Track.closing tokens kind opening openedAt
        return f inner)
      (enclosed stop kind opening openedAt ts) := by
  rw [enclosed]
  have hwhole := (leads_level (c := .oneOf) hu hs Nat.one_pos).whole hu
  refine (hwhole.bind_pure _).elim .fault fun {inner _ _ _} _ hle hs₁ h => ?_
  dsimp only
  refine .of_outcome h hle ?_
  exact ((leads_closing hu hs₁ kind opening openedAt).bind_pure _).elim .fault fun _ hle hs h =>
    .read hle hs h
termination_by 10 * ts.length + 9
decreasing_by simp only [Connective.looseness]; omega

end

end Phrases

end ValueSyntax
