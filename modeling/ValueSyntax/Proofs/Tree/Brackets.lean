import ValueSyntax.Proofs.Token.Layout
import ValueSyntax.Proofs.Tree.Faults

namespace ValueSyntax

namespace Token

/-- What closes an opening token. A function's token ends with an opening parenthesis. -/
def Kind.closing? : Kind → Option Kind
  | openBracket => some closeBracket
  | openCurly => some closeCurly
  | openParen | function => some closeParen
  | _ => none

def Kind.isClosing : Kind → Bool
  | closeBracket | closeCurly | closeParen => true
  | _ => false

/-- The bracket that a token is or ends with. -/
def Kind.bracket? : Kind → Option String
  | openBracket => some "["
  | closeBracket => some "]"
  | openCurly => some "\x7b"
  | closeCurly => some "\x7d"
  | openParen | function => some "("
  | closeParen => some ")"
  | _ => none

/-- The opening tokens that are still unclosed behind the tokens, the innermost first; `stack` are
those before them. None if a closing token meets an opening one of another kind, or no one. -/
def unclosed (stack : List Token) : List Token → Option (List Token)
  | [] => some stack
  | t :: ts =>
    if t.kind.closing?.isSome then unclosed (t :: stack) ts
    else if t.kind.isClosing then
      match stack with
      | o :: outer => if o.kind.closing? = some t.kind then unclosed outer ts else none
      | [] => none
    else unclosed stack ts

variable {ts us : List Token} {t o c : Token}

theorem unclosed_open (h : t.kind.closing?.isSome) (stack : List Token) :
    unclosed stack (t :: ts) = unclosed (t :: stack) ts := by
  simp [unclosed, h]

theorem unclosed_close (h : o.kind.closing? = some c.kind) (stack : List Token) :
    unclosed (o :: stack) (c :: ts) = unclosed stack ts := by
  have hc : c.kind.closing?.isSome = false ∧ c.kind.isClosing := by
    generalize o.kind = k at h
    generalize c.kind = l at h
    cases k <;> simp only [Kind.closing?, Option.some.injEq, reduceCtorEq] at h <;> subst h <;>
      exact ⟨rfl, rfl⟩
  simp [unclosed, hc, h]

theorem unclosed_other (h : t.kind.bracket? = none) (stack : List Token) :
    unclosed stack (t :: ts) = unclosed stack ts := by
  have ht : t.kind.closing?.isSome = false ∧ t.kind.isClosing = false := by
    generalize t.kind = k at h
    cases k <;> first | exact ⟨rfl, rfl⟩ | cases h
  simp [unclosed, ht]

theorem unclosed_append (stack ts us : List Token) :
    unclosed stack (ts ++ us) = (unclosed stack ts).bind (unclosed · us) := by
  induction ts generalizing stack with
  | nil => rfl
  | cons t ts ih =>
    rw [List.cons_append, unclosed.eq_def, unclosed.eq_def stack (t :: ts)]
    dsimp only
    split
    · exact ih _
    · split
      · cases stack with
        | nil => rfl
        | cons o outer =>
          dsimp only
          split
          · exact ih _
          · rfl
      · exact ih _

/-- The tokens leave no bracket open and close none that is open before them. -/
def Balanced (ts : List Token) : Prop := ∀ stack, unclosed stack ts = some stack

theorem Balanced.nil : Balanced [] := fun _ => rfl

theorem Balanced.unclosed_append (h : Balanced ts) (stack us : List Token) :
    unclosed stack (ts ++ us) = unclosed stack us := by
  rw [Token.unclosed_append, h, Option.bind_some]

theorem Balanced.append (hts : Balanced ts) (hus : Balanced us) : Balanced (ts ++ us) := by
  intro stack
  rw [hts.unclosed_append, hus]

theorem Balanced.cons (ht : t.kind.bracket? = none) (hts : Balanced ts) : Balanced (t :: ts) := by
  intro stack
  rw [unclosed_other ht, hts]

theorem Balanced.enclose (hts : Balanced ts) (h : o.kind.closing? = some c.kind) :
    Balanced (o :: (ts ++ [c])) := by
  intro stack
  rw [unclosed_open (by rw [h]; rfl), hts.unclosed_append]
  exact unclosed_close h stack

end Token

namespace Tree

open Token (Balanced unclosed unclosed_open)

theorem Counts.balanced {ts : List Token} {min : Nat} {max : Option Nat} (h : Counts ts min max) :
    Balanced ts := by
  cases h with
  | @exactly o a c _ ho ha _ hc =>
    have hts : Balanced [a] := .cons (by simp [ha, Token.Kind.bracket?]) .nil
    exact hts.enclose (by simp [ho, hc, Token.Kind.closing?])
  | @atLeast o a s c _ ho ha _ hs hc =>
    have hts : Balanced [a, s] := .cons (by simp [ha, Token.Kind.bracket?])
      (.cons (by simp [hs, Token.Kind.bracket?]) .nil)
    exact hts.enclose (by simp [ho, hc, Token.Kind.closing?])
  | @between o a s b c _ _ ho ha _ hs hb _ _ hc =>
    have hts : Balanced [a, s, b] := .cons (by simp [ha, Token.Kind.bracket?])
      (.cons (by simp [hs, Token.Kind.bracket?]) (.cons (by simp [hb, Token.Kind.bracket?]) .nil))
    exact hts.enclose (by simp [ho, hc, Token.Kind.closing?])

theorem Multiplies.balanced {operand : Tree} {ts : List Token} {m : Multiplier}
    (h : Multiplies operand ts m) : Balanced ts := by
  cases h with
  | star h => exact .cons (by simp [h, Token.Kind.bracket?]) .nil
  | plus h => exact .cons (by simp [h, Token.Kind.bracket?]) .nil
  | question h => exact .cons (by simp [h, Token.Kind.bracket?]) .nil
  | exclamation h => exact .cons (by simp [h, Token.Kind.bracket?]) .nil
  | hash h => exact .cons (by simp [h, Token.Kind.bracket?]) .nil
  | counts h => exact h.balanced
  | hashCounts ht h => exact .cons (by simp [ht, Token.Kind.bracket?]) h.balanced

theorem bracket?_of_mark {c : Connective} {kind : Token.Kind} {mark : Token}
    (hk : c.kind? = some kind) (hmark : mark.kind = kind) : mark.kind.bracket? = none := by
  rw [hmark]
  cases c <;> cases hk <;> rfl

theorem Joins.balanced {c : Connective} {parts : List (List Token)} {ts : List Token}
    (h : Joins c parts ts) (hparts : ∀ p ∈ parts, Balanced p) : Balanced ts := by
  induction h with
  | last ts => exact hparts ts (List.mem_singleton_self ts)
  | marked hk hm _ ih =>
    obtain ⟨hts, hmore⟩ := List.forall_mem_cons.mp hparts
    exact hts.append (.cons (bracket?_of_mark hk hm) (ih hmore))
  | adjacent _ _ ih =>
    obtain ⟨hts, hmore⟩ := List.forall_mem_cons.mp hparts
    exact hts.append (ih hmore)

theorem bracket?_of_leaf {tok : Token} {x : Except Fault Tree} (h : ofLeaf? tok = some x) :
    tok.kind.bracket? = none := by
  unfold ofLeaf? at h
  split at h <;> simp_all [Token.Kind.bracket?]

theorem Derives.balanced {phrase : Phrase} {ts : List Token} {t : Tree}
    (h : Derives phrase ts t) : Balanced ts := by
  induction h with
  | leaf h => exact .cons (bracket?_of_leaf h) .nil
  | brackets ho _ hc ih => exact ih.enclose (by simp [ho, hc, Token.Kind.closing?])
  | parentheses ho _ hc ih => exact ih.enclose (by simp [ho, hc, Token.Kind.closing?])
  | emptyFunction hf hc => exact Balanced.nil.enclose (by simp [hf, hc, Token.Kind.closing?])
  | function hf _ hc ih => exact ih.enclose (by simp [hf, hc, Token.Kind.closing?])
  | once _ ih => exact ih
  | multiplied _ hm _ ih => exact ih.append hm.balanced
  | single _ ih => exact ih
  | joined _ _ hts ih =>
    apply hts.balanced
    intro p hp
    obtain ⟨q, hq, rfl⟩ := List.mem_map.mp hp
    exact ih q hq

/-- The tokens end inside a bracket that stands at the offset: of those that are open at the end
it is the innermost. -/
def EndsInside (bracket : String) (offset : Nat) (ts : List Token) : Prop :=
  ∃ o ∈ ts, o.start = offset ∧ o.kind.bracket? = some bracket ∧ o.kind.closing?.isSome ∧
    ∀ stack, ∃ outer, unclosed stack ts = some (o :: outer)

variable {bracket : String} {offset : Nat} {last : Token} {ts rest : List Token}

theorem EndsInside.prepend {used : List Token} (h : EndsInside bracket offset rest)
    (hused : Balanced used) : EndsInside bracket offset (used ++ rest) := by
  obtain ⟨o, ho, hstart, hbracket, hopens, hopen⟩ := h
  refine ⟨o, List.mem_append_right _ ho, hstart, hbracket, hopens, fun stack => ?_⟩
  rw [hused.unclosed_append]
  exact hopen stack

theorem EndsInside.behind {t : Token} (h : EndsInside bracket offset rest)
    (ht : t.kind.bracket? = none) : EndsInside bracket offset (t :: rest) :=
  h.prepend (.cons ht .nil)

theorem EndsInside.within {o : Token} (h : EndsInside bracket offset ts)
    (ho : o.kind.closing?.isSome) : EndsInside bracket offset (o :: ts) := by
  obtain ⟨p, hp, hstart, hbracket, hopens, hopen⟩ := h
  refine ⟨p, List.mem_cons_of_mem _ hp, hstart, hbracket, hopens, fun stack => ?_⟩
  rw [unclosed_open ho]
  exact hopen (o :: stack)

theorem EndsInside.of_open {o : Token} (ho : o.kind.closing?.isSome)
    (hbracket : o.kind.bracket? = some bracket) (hts : Balanced ts) :
    EndsInside bracket o.start (o :: ts) := by
  refine ⟨o, List.mem_cons_self .., rfl, hbracket, ho, fun stack => ⟨stack, ?_⟩⟩
  rw [unclosed_open ho, hts]

theorem unexpected_ne_unbalanced : unexpected last ts ≠ ⟨.unbalanced bracket, offset⟩ := by
  match ts with
  | [] => simp [unexpected]
  | t :: ts =>
    rw [unexpected]
    split <;> simp

theorem closed_unbalanced {closing : Token.Kind} {opening : String} {openedAt : Nat}
    (hx : closed last closing opening openedAt ts = .error ⟨.unbalanced bracket, offset⟩) :
    ts = [] ∧ opening = bracket ∧ openedAt = offset := by
  match ts with
  | [] =>
    cases hx
    exact ⟨rfl, rfl, rfl⟩
  | t :: ts =>
    rw [closed] at hx
    split at hx
    · cases hx
    · exact absurd (Except.error.inj hx) unexpected_ne_unbalanced

theorem repeatCount_not_unbalanced :
    repeatCount last ts ≠ .error ⟨.unbalanced bracket, offset⟩ := by
  match ts with
  | [] => simp [repeatCount]
  | t :: ts =>
    rw [repeatCount]
    split
    · split <;> simp
    · simp

theorem repeatMaximum_not_unbalanced {min : Nat} :
    repeatMaximum last min ts ≠ .error ⟨.unbalanced bracket, offset⟩ := by
  intro hx
  match ts with
  | [] => cases hx
  | t :: ts =>
    rw [repeatMaximum] at hx
    split at hx
    · split at hx
      · split at hx
        · next hcount =>
          cases hx
          exact repeatCount_not_unbalanced hcount
        · cases hx
      · cases hx
    · cases hx

theorem Balanced.of_repeatMaximum {min : Nat} {max : Option Nat}
    (hx : Reads (repeatMaximum last min ts) max rest) :
    ∃ used, ts = used ++ rest ∧ Balanced used := by
  rcases reads_repeatMaximum.mp hx with
    ⟨s, ts₁, m, rfl, hs, -, hcount, -⟩ | ⟨s, rfl, hs, -⟩ | ⟨-, rfl, -⟩
  · obtain ⟨b, rfl, hb, -⟩ := reads_repeatCount.mp hcount
    exact ⟨[s, b], rfl, .cons (by simp [hs, Token.Kind.bracket?])
      (.cons (by simp [hb, Token.Kind.bracket?]) .nil)⟩
  · exact ⟨[s], rfl, .cons (by simp [hs, Token.Kind.bracket?]) .nil⟩
  · exact ⟨[], rfl, .nil⟩

theorem counted_unbalanced {o : Token} {separator : Separator} (ho : o.kind = .openCurly)
    (hx : counted last separator o.start ts = .error ⟨.unbalanced bracket, offset⟩) :
    EndsInside bracket offset (o :: ts) := by
  rw [counted] at hx
  split at hx
  · next hcount =>
    cases hx
    exact absurd hcount repeatCount_not_unbalanced
  · next h₁ hcount =>
    obtain ⟨a, rfl, ha, -⟩ := reads_repeatCount.mp ⟨h₁, hcount⟩
    split at hx
    · next hmax =>
      cases hx
      exact absurd hmax repeatMaximum_not_unbalanced
    · next h₂ hmax =>
      obtain ⟨used, rfl, hused⟩ := Balanced.of_repeatMaximum ⟨h₂, hmax⟩
      split at hx
      · next hclosed =>
        cases hx
        obtain ⟨rfl, rfl, rfl⟩ := closed_unbalanced hclosed
        rw [List.append_nil]
        refine .of_open (by simp [ho, Token.Kind.closing?]) (by simp [ho, Token.Kind.bracket?]) ?_
        exact hused.cons (by simp [ha, Token.Kind.bracket?])
      · split at hx <;> cases hx

theorem braced_unbalanced {separator : Separator} (ho : startsWith .openCurly ts)
    (hx : braced last separator ts = .error ⟨.unbalanced bracket, offset⟩) :
    EndsInside bracket offset ts := by
  match ts with
  | [] => cases hx
  | o :: ts =>
    rw [braced] at hx
    split at hx <;> cases hx
    next hcounted => exact counted_unbalanced (by simpa using ho) hcounted

theorem multiplier?_unbalanced {operand : Tree}
    (hx : multiplier? last operand ts = .error ⟨.unbalanced bracket, offset⟩) :
    EndsInside bracket offset ts := by
  match ts with
  | [] => cases hx
  | t :: ts =>
    rw [multiplier?] at hx
    split at hx
    · cases hx
    · cases hx
    · cases hx
    · split at hx <;> cases hx
    · next hhash =>
      split at hx
      · next ho =>
        split at hx <;> cases hx
        next hbraced =>
          exact (braced_unbalanced ho hbraced).behind (by simp [hhash, Token.Kind.bracket?])
      · cases hx
    · next hopen =>
      split at hx <;> cases hx
      next hbraced => exact braced_unbalanced (by simp [hopen]) hbraced
    · cases hx

theorem multipliedBy_unbalanced {ts : List Token} {operand : Tree}
    (hx : multipliedBy last operand ts = .error ⟨.unbalanced bracket, offset⟩) :
    EndsInside bracket offset ts := by
  rw [multipliedBy] at hx
  split at hx
  · next hfinds =>
    cases hx
    exact multiplier?_unbalanced hfinds
  · cases hx
  · next m ts₁ h₁ hfinds =>
    have hlt : ts₁.length < ts.length := h₁
    obtain ⟨used, rfl, hm, -⟩ := finds_multiplier.mp ⟨h₁, hfinds⟩
    split at hx <;> cases hx
    next hmore => exact (multipliedBy_unbalanced hmore).prepend hm.balanced
termination_by ts.length

theorem ofLeaf?_not_unbalanced {t : Token} :
    ofLeaf? t ≠ some (.error ⟨.unbalanced bracket, offset⟩) := by
  intro hx
  unfold ofLeaf? at hx
  split at hx
  · cases hx
  · cases hx
  · cases hx
  · cases hx
  · have hx : ofReference t = .error ⟨.unbalanced bracket, offset⟩ := Option.some.inj hx
    unfold ofReference at hx
    dsimp only at hx
    split at hx
    · cases hx
    · split at hx <;> cases hx
  · have hx : ofNumber t = .error ⟨.unbalanced bracket, offset⟩ := Option.some.inj hx
    unfold ofNumber at hx
    dsimp only at hx
    split at hx <;> cases hx
  · cases hx

theorem EndsInside.next {c : Connective} {hle : rest.length ≤ ts.length}
    (h : EndsInside bracket offset rest) (hx : c.next? ts = some ⟨((), rest), hle⟩) :
    EndsInside bracket offset ts := by
  rcases Connective.next?_eq_some.mp ⟨hle, hx⟩ with ⟨kind, mark, hk, rfl, hmark⟩ | ⟨-, rfl, -⟩
  · exact h.behind (bracket?_of_mark hk hmark)
  · exact h

mutual

theorem level_unbalanced {c : Connective} {ts : List Token}
    (hx : level last c ts = .error ⟨.unbalanced bracket, offset⟩) :
    EndsInside bracket offset ts := by
  rw [level] at hx
  split at hx
  · next hfirst =>
    cases hx
    exact operand_unbalanced hfirst
  · next first ts₁ h₁ hfirst =>
    have hlt : ts₁.length < ts.length := h₁
    obtain ⟨used, rfl, hderives⟩ := derives_operand ⟨h₁, hfirst⟩
    split at hx <;> cases hx
    next hmore => exact (others_unbalanced hmore).prepend hderives.balanced
termination_by 10 * ts.length + 2 * c.looseness + 2

theorem operand_unbalanced {c : Connective} {ts : List Token}
    (hx : operand last c ts = .error ⟨.unbalanced bracket, offset⟩) :
    EndsInside bracket offset ts := by
  match c with
  | .oneOf => exact level_unbalanced (by rwa [operand] at hx)
  | .anyOrder => exact level_unbalanced (by rwa [operand] at hx)
  | .allRequired => exact level_unbalanced (by rwa [operand] at hx)
  | .juxtaposition =>
    rw [operand] at hx
    split at hx
    · next hterm =>
      cases hx
      exact term_unbalanced hterm
    · next h₁ hterm =>
      obtain ⟨used, rfl, hderives⟩ := derives_term ⟨h₁, hterm⟩
      split at hx <;> cases hx
      next hmore => exact (multipliedBy_unbalanced hmore).prepend hderives.balanced
termination_by 10 * ts.length + 2 * c.looseness + 1
decreasing_by all_goals simp only [Connective.looseness]; omega

theorem others_unbalanced {c : Connective} {ts : List Token}
    (hx : others last c ts = .error ⟨.unbalanced bracket, offset⟩) :
    EndsInside bracket offset ts := by
  rw [others] at hx
  split at hx
  · cases hx
  · next ts₁ h₁ hnext =>
    have hle : ts₁.length ≤ ts.length := h₁
    split at hx
    · next hoperand =>
      cases hx
      exact (operand_unbalanced hoperand).next hnext
    · next t ts₂ h₂ hoperand =>
      have hlt : ts₂.length < ts₁.length := h₂
      obtain ⟨used, rfl, hderives⟩ := derives_operand ⟨h₂, hoperand⟩
      split at hx <;> cases hx
      next hmore => exact ((others_unbalanced hmore).prepend hderives.balanced).next hnext
termination_by 10 * ts.length + 2 * c.looseness + 2

theorem term_unbalanced {ts : List Token}
    (hx : term last ts = .error ⟨.unbalanced bracket, offset⟩) :
    EndsInside bracket offset ts := by
  match ts with
  | [] =>
    rw [term] at hx
    cases hx
  | t :: ts =>
    rw [term] at hx
    split at hx
    · next hk =>
      split at hx <;> cases hx
      next hinner =>
        exact enclosed_unbalanced (by simp [hk, Token.Kind.closing?])
          (by simp [hk, Token.Kind.bracket?]) hinner
    · next hk =>
      split at hx <;> cases hx
      next hinner =>
        exact enclosed_unbalanced (by simp [hk, Token.Kind.closing?])
          (by simp [hk, Token.Kind.bracket?]) hinner
    · next hk =>
      split at hx
      · cases hx
      · split at hx <;> cases hx
        next hinner =>
          exact enclosed_unbalanced (by simp [hk, Token.Kind.closing?])
            (by simp [hk, Token.Kind.bracket?]) hinner
    · split at hx
      · cases hx
      · next hleaf =>
        cases hx
        exact absurd hleaf ofLeaf?_not_unbalanced
      · exact absurd (Except.error.inj hx) unexpected_ne_unbalanced
termination_by 10 * ts.length
decreasing_by all_goals rw [List.length_cons]; omega

theorem enclosed_unbalanced {ts : List Token} {o : Token} {closing : Token.Kind}
    {opening : String} (ho : o.kind.closing?.isSome) (hopening : o.kind.bracket? = some opening)
    (hx : enclosed last closing opening o.start ts = .error ⟨.unbalanced bracket, offset⟩) :
    EndsInside bracket offset (o :: ts) := by
  rw [enclosed] at hx
  split at hx
  · next hinner =>
    cases hx
    exact (level_unbalanced hinner).within ho
  · next h₁ hinner =>
    obtain ⟨used, rfl, hderives⟩ := derives_level ⟨h₁, hinner⟩
    split at hx <;> cases hx
    next hclosed =>
      obtain ⟨rfl, rfl, rfl⟩ := closed_unbalanced hclosed
      rw [List.append_nil]
      exact .of_open ho hopening hderives.balanced
termination_by 10 * ts.length + 9
decreasing_by simp only [Connective.looseness]; omega

end

/-- The bracket that is reported is one that is still open behind the last token, or one that closes
nothing behind a balanced definition. -/
theorem ofTokens_unbalanced {body : List Token} {last : Token} (hend : last.kind = .endMark)
    (hbody : ∀ t ∈ body, t.kind ≠ .endMark)
    (hx : ofTokens (body ++ [last]) = .error ⟨.unbalanced bracket, offset⟩) :
    EndsInside bracket offset body ∨
      ∃ before t after, body = before ++ t :: after ∧ Balanced before ∧ t.start = offset ∧
        t.value = bracket ∧ (t.kind = .closeBracket ∨ t.kind = .closeParen) := by
  unfold ofTokens at hx
  dsimp only at hx
  rw [takeWhile_ne_endMark hend hbody] at hx
  split at hx
  · cases hx
  · split at hx
    · next hlevel =>
      cases hx
      exact Or.inl (level_unbalanced hlevel)
    · cases hx
    · next t after h₁ hlevel =>
      obtain ⟨before, rfl, hderives⟩ := derives_level ⟨h₁, hlevel⟩
      replace hx := Except.error.inj hx
      unfold leftOver at hx
      split at hx
      · next hclosing =>
        cases hx
        exact Or.inr ⟨before, t, after, rfl, hderives.balanced, rfl, rfl, hclosing⟩
      · exact absurd hx unexpected_ne_unbalanced

end Tree

namespace Token

theorem Formed.bracket {t : Token} (h : Formed t.kind t.value.toList)
    (hclosing : t.kind = .closeBracket ∨ t.kind = .closeParen) :
    t.kind.bracket? = some t.value := by
  generalize hkind : t.kind = kind, hvalue : t.value.toList = value at h hclosing
  have htext : t.value = String.ofList value := by rw [← hvalue, String.ofList_toList]
  rw [htext]
  rcases hclosing with rfl | rfl <;> cases h with
  | mark h =>
    simp [marks] at h
    rw [h]
    rfl

/-- No other token starts where one does that is not the end mark. -/
theorem Tiling.start_ne {text : String} {before after : List Token} {t : Token}
    (h : Tiling text (before ++ t :: after)) (ht : t.kind ≠ .endMark) :
    ∀ u ∈ before ++ after, u.start ≠ t.start := by
  obtain ⟨body, htokens, hbody⟩ := h.closed
  have hordered := h.ordered
  have nonempty : ∀ u ∈ before ++ t :: after, u.kind ≠ .endMark → u.start < u.stop := by
    intro u hu hkind
    rw [htokens] at hu
    rcases List.mem_append.mp hu with hu | hu
    · exact (hbody u hu).2
    · rw [List.mem_singleton.mp hu] at hkind
      exact absurd rfl hkind
  have htspan := nonempty t (by simp) ht
  obtain ⟨-, hafter, hbefore⟩ := List.pairwise_append.mp hordered
  intro u hu hstart
  rcases List.mem_append.mp hu with hu | hu
  · have hut : u.stop ≤ t.start := hbefore u hu t (List.mem_cons_self ..)
    have hkind : u.kind ≠ .endMark := by
      -- The end mark is the last token, and this one has another behind it.
      intro hend
      have hdrop : u ∈ (before ++ t :: after).dropLast := by
        rw [List.dropLast_append_of_ne_nil (by simp)]
        exact List.mem_append_left _ hu
      rw [htokens, List.dropLast_concat] at hdrop
      exact (hbody u hdrop).1 hend
    have := nonempty u (List.mem_append_left _ hu) hkind
    omega
  · have htu : t.stop ≤ u.start := (List.pairwise_cons.mp hafter).1 u hu
    omega

theorem scan_ne_unbalanced {text bracket : String} {offset : Nat} :
    scan text ≠ .error ⟨.unbalanced bracket, offset⟩ := by
  intro h
  obtain ⟨_, _, _, -, -, hfault, -⟩ := stopsShort_of_scan h
  cases hfault

/-- A token without a partner: it opens a bracket that is the innermost of those still open behind
the last token, or it closes one although all that are opened before it are closed before it. -/
def Unpaired (before : List Token) (t : Token) (after : List Token) : Prop :=
  (t.kind.closing?.isSome ∧ ∃ outer, unclosed [] (before ++ t :: after) = some (t :: outer)) ∨
    ((t.kind = .closeBracket ∨ t.kind = .closeParen) ∧ unclosed [] before = some [])

end Token

open Token (Unpaired unclosed)

/-- A bracket is reported as unbalanced only if it has no partner. The offset is that of its token
and of no other one. -/
theorem Source.unpaired_of_unbalanced {source : Source} {f : Failure} {bracket : String}
    (h : source.tree = .error f) (hcause : f.cause = .unbalanced bracket) :
    ∃ before t after, Token.scan source.text = .ok (before ++ t :: after) ∧ f.offset = t.start ∧
      (∀ u ∈ before ++ after, u.start ≠ t.start) ∧ t.kind.bracket? = some bracket ∧
      Unpaired before t after := by
  have hread : Tree.ofText source.text = .error ⟨.unbalanced bracket, f.offset⟩ := by
    rw [← hcause]
    exact (Source.tree_eq_error_iff.mp h).2
  unfold Tree.ofText at hread
  cases hscan : Token.scan source.text with
  | error stuck =>
    rw [hscan] at hread
    cases hread
    exact absurd hscan Token.scan_ne_unbalanced
  | ok tokens =>
    have htiling := Token.tiling_of_scan hscan
    obtain ⟨body, rfl, hbody⟩ := htiling.closed
    rw [hscan] at hread
    rcases Tree.ofTokens_unbalanced rfl (fun t ht => (hbody t ht).1) hread with
      ⟨o, ho, hstart, hbracket, hopens, hopen⟩ |
      ⟨before, t, after, rfl, hbalanced, hstart, hvalue, hclosing⟩
    · obtain ⟨before, after, rfl⟩ := List.append_of_mem ho
      rw [List.append_assoc, List.cons_append] at htiling ⊢
      refine ⟨before, o, _, rfl, hstart.symm, htiling.start_ne (hbody o ho).1, hbracket, ?_⟩
      obtain ⟨outer, hopen⟩ := hopen []
      refine Or.inl ⟨hopens, outer, ?_⟩
      -- The end mark behind the body closes nothing.
      rw [← List.cons_append, ← List.append_assoc, Token.unclosed_append, hopen]
      rfl
    · have ht : t ∈ before ++ t :: after := by simp
      have hkind := (hbody t ht).1
      have hformed := Token.formed_of_scanFrom hscan (List.mem_append_left _ ht) hkind
      rw [List.append_assoc, List.cons_append] at htiling ⊢
      refine ⟨before, t, _, rfl, hstart.symm, htiling.start_ne hkind, ?_, ?_⟩
      · rw [hformed.bracket hclosing, hvalue]
      · exact Or.inr ⟨hclosing, hbalanced []⟩

/-- A bracket around a function, and parentheses within it that have their partner. -/
def openFunction : Source := ⟨"test", "[ f( (b)"⟩

theorem Source.unpaired_of_unbalanced_function :
    openFunction.tree = .error ⟨⟨.unbalanced "(", 2⟩, openFunction⟩ ∧
      ∃ before t after, Token.scan openFunction.text = .ok (before ++ t :: after) ∧
        2 = t.start ∧ (∀ u ∈ before ++ after, u.start ≠ t.start) ∧
        t.kind.bracket? = some "(" ∧ Unpaired before t after := by
  have hread : openFunction.tree = .error ⟨⟨.unbalanced "(", 2⟩, openFunction⟩ := by decide +kernel
  exact ⟨hread, unpaired_of_unbalanced hread rfl⟩

end ValueSyntax
