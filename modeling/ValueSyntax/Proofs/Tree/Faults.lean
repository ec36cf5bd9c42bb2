import ValueSyntax.Proofs.Token.Spans
import ValueSyntax.Proofs.Tree.Recognition

namespace ValueSyntax

/-- The fault is at the start of one of the tokens, so it is not that there are none. -/
def Fault.At (tokens : List Token) (fault : Fault) : Prop :=
  fault.cause ≠ .nothing ∧ ∃ t ∈ tokens, fault.offset = t.start

attribute [simp] Cause.isSyntactic

structure Fault.Raised (tokens : List Token) (fault : Fault) : Prop where
  located : fault.At tokens
  syntactic : fault.cause.isSyntactic

theorem Fault.Raised.intro {tokens : List Token} {t : Token} {cause : Cause} (ht : t ∈ tokens)
    (h : cause ≠ .nothing ∧ cause.isSyntactic) : Fault.Raised tokens ⟨cause, t.start⟩ :=
  ⟨⟨h.1, t, ht, rfl⟩, h.2⟩

namespace Tree

/-- What the parser looks at is among the tokens: the mark after all of them, and those that it
still has before it. -/
structure Ahead (tokens : List Token) (last : Token) (ts : List Token) : Prop where
  last : last ∈ tokens
  ts : ts ⊆ tokens

variable {tokens rest : List Token} {last : Token} {fault : Fault}

theorem Ahead.of_append {used : List Token} (h : Ahead tokens last (used ++ rest)) :
    Ahead tokens last rest :=
  ⟨h.last, fun _ ht => h.ts (List.mem_append_right _ ht)⟩

theorem Ahead.tail {t : Token} (h : Ahead tokens last (t :: rest)) : Ahead tokens last rest :=
  ⟨h.last, fun _ ht => h.ts (List.mem_cons_of_mem _ ht)⟩

theorem Ahead.head {t : Token} (h : Ahead tokens last (t :: rest)) : t ∈ tokens :=
  h.ts (List.mem_cons_self ..)

theorem unexpected_at {ts : List Token} (h : Ahead tokens last ts) :
    (unexpected last ts).Raised tokens := by
  match ts with
  | [] => exact .intro h.last (by simp)
  | t :: ts =>
    refine .intro h.head ?_
    split <;> simp

theorem closed_at {ts : List Token} {o : Token} {closing : Token.Kind} {opening : String}
    (h : Ahead tokens last ts) (ho : o ∈ tokens)
    (hx : closed last closing opening o.start ts = .error fault) : fault.Raised tokens := by
  match ts with
  | [] =>
    cases hx
    exact .intro ho (by simp)
  | t :: ts =>
    rw [closed] at hx
    split at hx <;> cases hx
    exact unexpected_at h

theorem repeatCount_at {ts : List Token} (h : Ahead tokens last ts)
    (hx : repeatCount last ts = .error fault) : fault.Raised tokens := by
  match ts with
  | [] =>
    cases hx
    exact .intro h.last (by simp)
  | t :: ts =>
    rw [repeatCount] at hx
    split at hx
    · split at hx <;> cases hx
      exact .intro h.head (by simp)
    · cases hx
      exact .intro h.head (by simp)

theorem Ahead.repeatCount {ts : List Token} {n : Nat} (h : Ahead tokens last ts)
    (hx : Reads (repeatCount last ts) n rest) : Ahead tokens last rest := by
  obtain ⟨a, rfl, -⟩ := reads_repeatCount.mp hx
  exact h.tail

theorem repeatMaximum_at {ts : List Token} {min : Nat} (h : Ahead tokens last ts)
    (hx : repeatMaximum last min ts = .error fault) : fault.Raised tokens := by
  match ts with
  | [] => cases hx
  | t :: ts =>
    rw [repeatMaximum] at hx
    split at hx
    · split at hx
      · split at hx
        · next hcount =>
          cases hx
          exact repeatCount_at h.tail hcount
        · cases hx
      · cases hx
    · cases hx

theorem Ahead.repeatMaximum {ts : List Token} {min : Nat} {max : Option Nat}
    (h : Ahead tokens last ts)
    (hx : Reads (repeatMaximum last min ts) max rest) : Ahead tokens last rest := by
  rcases reads_repeatMaximum.mp hx with
    ⟨s, ts₁, m, rfl, -, -, hcount, -⟩ | ⟨s, rfl, -⟩ | ⟨-, rfl, -⟩
  · exact h.tail.repeatCount hcount
  · exact h.tail
  · exact h

theorem counted_at {ts : List Token} {o : Token} {separator : Separator}
    (h : Ahead tokens last ts) (ho : o ∈ tokens)
    (hx : counted last separator o.start ts = .error fault) : fault.Raised tokens := by
  rw [counted] at hx
  split at hx
  · next hcount =>
    cases hx
    exact repeatCount_at h hcount
  · next h₁ hcount =>
    have h₁ := h.repeatCount ⟨h₁, hcount⟩
    split at hx
    · next hmax =>
      cases hx
      exact repeatMaximum_at h₁ hmax
    · next h₂ hmax =>
      have h₂ := h₁.repeatMaximum ⟨h₂, hmax⟩
      split at hx
      · next hclosed =>
        cases hx
        exact closed_at h₂ ho hclosed
      · split at hx <;> cases hx
        exact .intro ho (by simp)

theorem braced_at {ts : List Token} {separator : Separator} (h : Ahead tokens last ts)
    (hx : braced last separator ts = .error fault) : fault.Raised tokens := by
  match ts with
  | [] =>
    cases hx
    exact unexpected_at h
  | t :: ts =>
    rw [braced] at hx
    split at hx <;> cases hx
    next hcounted => exact counted_at h.tail h.head hcounted

theorem multiplier?_at {ts : List Token} {operand : Tree} (h : Ahead tokens last ts)
    (hx : multiplier? last operand ts = .error fault) : fault.Raised tokens := by
  match ts with
  | [] => cases hx
  | t :: ts =>
    rw [multiplier?] at hx
    split at hx
    · cases hx
    · cases hx
    · cases hx
    · split at hx <;> cases hx
      exact .intro h.head (by simp)
    · split at hx
      · split at hx <;> cases hx
        next hbraced => exact braced_at h.tail hbraced
      · cases hx
    · split at hx <;> cases hx
      next hbraced => exact braced_at h hbraced
    · cases hx

theorem multipliedBy_at {ts : List Token} {operand : Tree} (h : Ahead tokens last ts)
    (hx : multipliedBy last operand ts = .error fault) : fault.Raised tokens := by
  rw [multipliedBy] at hx
  split at hx
  · next hfinds =>
    cases hx
    exact multiplier?_at h hfinds
  · cases hx
  · next m ts₁ h₁ hfinds =>
    have hlt : ts₁.length < ts.length := h₁
    obtain ⟨used, rfl, -⟩ := finds_multiplier.mp ⟨h₁, hfinds⟩
    split at hx <;> cases hx
    next hmore => exact multipliedBy_at h.of_append hmore
termination_by ts.length

theorem ofLeaf?_at {t : Token} (ht : t ∈ tokens) (hx : ofLeaf? t = some (.error fault)) :
    fault.Raised tokens := by
  unfold ofLeaf? at hx
  split at hx
  · cases hx
  · cases hx
  · cases hx
  · cases hx
  · have hx : ofReference t = .error fault := Option.some.inj hx
    unfold ofReference at hx
    dsimp only at hx
    split at hx
    · cases hx
    · split at hx <;> cases hx
      exact .intro ht (by simp)
  · have hx : ofNumber t = .error fault := Option.some.inj hx
    unfold ofNumber at hx
    dsimp only at hx
    split at hx <;> cases hx
    exact .intro ht (by simp)
  · cases hx

theorem Ahead.operand {ts : List Token} {c : Connective} {t : Tree} (h : Ahead tokens last ts)
    (hx : Reads (operand last c ts) t rest) : Ahead tokens last rest := by
  obtain ⟨used, rfl, -⟩ := derives_operand hx
  exact h.of_append

theorem Ahead.next {ts : List Token} {c : Connective} {hle : rest.length ≤ ts.length}
    (h : Ahead tokens last ts) (hx : c.next? ts = some ⟨((), rest), hle⟩) :
    Ahead tokens last rest := by
  rcases Connective.next?_eq_some.mp ⟨hle, hx⟩ with ⟨kind, mark, -, rfl, -⟩ | ⟨-, rfl, -⟩
  · exact h.tail
  · exact h

mutual

theorem level_at {ts : List Token} {c : Connective} (h : Ahead tokens last ts)
    (hx : level last c ts = .error fault) : fault.Raised tokens := by
  rw [level] at hx
  split at hx
  · next hfirst =>
    cases hx
    exact operand_at h hfirst
  · next first ts₁ h₁ hfirst =>
    have hlt : ts₁.length < ts.length := h₁
    split at hx <;> cases hx
    next hmore => exact others_at (h.operand ⟨h₁, hfirst⟩) hmore
termination_by 10 * ts.length + 2 * c.looseness + 2

theorem operand_at {ts : List Token} {c : Connective} (h : Ahead tokens last ts)
    (hx : operand last c ts = .error fault) : fault.Raised tokens := by
  match c with
  | .oneOf => exact level_at h (by rwa [operand] at hx)
  | .anyOrder => exact level_at h (by rwa [operand] at hx)
  | .allRequired => exact level_at h (by rwa [operand] at hx)
  | .juxtaposition =>
    rw [operand] at hx
    split at hx
    · next hterm =>
      cases hx
      exact term_at h hterm
    · next h₁ hterm =>
      obtain ⟨used, rfl, -⟩ := derives_term ⟨h₁, hterm⟩
      split at hx <;> cases hx
      next hmore => exact multipliedBy_at h.of_append hmore
termination_by 10 * ts.length + 2 * c.looseness + 1
decreasing_by all_goals simp only [Connective.looseness]; omega

theorem others_at {ts : List Token} {c : Connective} (h : Ahead tokens last ts)
    (hx : others last c ts = .error fault) : fault.Raised tokens := by
  rw [others] at hx
  split at hx
  · cases hx
  · next ts₁ h₁ hnext =>
    have hle : ts₁.length ≤ ts.length := h₁
    split at hx
    · next hoperand =>
      cases hx
      exact operand_at (h.next hnext) hoperand
    · next t ts₂ h₂ hoperand =>
      have hlt : ts₂.length < ts₁.length := h₂
      split at hx <;> cases hx
      next hmore => exact others_at ((h.next hnext).operand ⟨h₂, hoperand⟩) hmore
termination_by 10 * ts.length + 2 * c.looseness + 2

theorem term_at {ts : List Token} (h : Ahead tokens last ts)
    (hx : term last ts = .error fault) : fault.Raised tokens := by
  match ts with
  | [] =>
    rw [term] at hx
    cases hx
    exact unexpected_at h
  | t :: ts =>
    rw [term] at hx
    split at hx
    · split at hx <;> cases hx
      next hinner => exact enclosed_at h.tail h.head hinner
    · split at hx <;> cases hx
      next hinner => exact enclosed_at h.tail h.head hinner
    · split at hx
      · cases hx
      · split at hx <;> cases hx
        next hinner => exact enclosed_at h.tail h.head hinner
    · split at hx
      · cases hx
      · next hleaf =>
        cases hx
        exact ofLeaf?_at h.head hleaf
      · cases hx
        exact unexpected_at h
termination_by 10 * ts.length
decreasing_by all_goals rw [List.length_cons]; omega

theorem enclosed_at {ts : List Token} {o : Token} {closing : Token.Kind} {opening : String}
    (h : Ahead tokens last ts) (ho : o ∈ tokens)
    (hx : enclosed last closing opening o.start ts = .error fault) : fault.Raised tokens := by
  rw [enclosed] at hx
  split at hx
  · next hinner =>
    cases hx
    exact level_at h hinner
  · next h₁ hinner =>
    obtain ⟨used, rfl, -⟩ := derives_level ⟨h₁, hinner⟩
    split at hx <;> cases hx
    next hclosed => exact closed_at h.of_append ho hclosed
termination_by 10 * ts.length + 9
decreasing_by simp only [Connective.looseness]; omega

end

theorem ofTokens_at {body : List Token} {offset : Nat} (htokens : tokens = body ++ [.endAt offset])
    (hx : ofTokens tokens = .error fault) : fault = ⟨.nothing, 0⟩ ∨ fault.Raised tokens := by
  unfold ofTokens at hx
  dsimp only at hx
  -- The mark that stands for the end of the tokens is one of them.
  have hend : ∃ last ∈ tokens, (tokens.find? (·.kind = .endMark)).getD (Token.endAt 0) = last := by
    cases hfind : tokens.find? (·.kind = .endMark) with
    | none =>
      simpa [Token.endAt] using List.find?_eq_none.mp hfind (.endAt offset) (by simp [htokens])
    | some last => exact ⟨last, List.mem_of_find?_eq_some hfind, rfl⟩
  obtain ⟨last, hlast, hfind⟩ := hend
  rw [hfind] at hx
  have h : Ahead tokens last (tokens.takeWhile (·.kind ≠ .endMark)) :=
    ⟨hlast, (List.takeWhile_prefix _).subset⟩
  split at hx
  · cases hx
    exact Or.inl rfl
  · refine Or.inr ?_
    split at hx
    · next hlevel =>
      cases hx
      exact level_at h hlevel
    · cases hx
    · next t rest h₁ hlevel =>
      cases hx
      obtain ⟨used, hused, -⟩ := derives_level ⟨h₁, hlevel⟩
      rw [hused] at h
      have h := h.of_append
      unfold leftOver
      split
      · exact .intro h.head (by simp)
      · exact unexpected_at h

end Tree

/-- The offset lies between two characters of the text that is quoted, or at one of its ends: the
text can be cut there, and the characters before the cut can be counted. -/
def Failure.PointsInto (f : Failure) : Prop :=
  f.offset ≤ f.source.text.utf8ByteSize ∧
    ∃ before after, f.source.text.toList = before ++ after ∧ f.offset = byteLength before ∧
      charactersBefore f.offset f.source.text.toList = before.length

theorem Failure.PointsInto.intro {f : Failure} {before after : List Char}
    (htext : f.source.text.toList = before ++ after) (h : f.offset = byteLength before) :
    f.PointsInto := by
  refine ⟨?_, before, after, htext, h, ?_⟩
  · rw [h, ← byteLength_toList, htext, byteLength_append]
    exact Nat.le_add_right _ _
  · rw [h, htext]
    exact charactersBefore_byteLength before after

/-- If the text cannot be scanned, the fault is where it is stuck. Otherwise there is no term in it,
or the fault is at a token. -/
def Fault.Placed (text : String) (fault : Fault) : Prop :=
  match Token.scan text with
  | .error _ => Token.StuckAt text fault.offset
  | .ok tokens => fault = ⟨.nothing, 0⟩ ∨ fault.At tokens

theorem Token.Tiling.exists_cut {text : String} {tokens : List Token} (h : Tiling text tokens)
    {t : Token} (ht : t ∈ tokens) :
    ∃ before after, text.toList = before ++ after ∧ t.start = byteLength before := by
  by_cases hkind : t.kind = .endMark
  · obtain ⟨body, rfl, hbody⟩ := h.closed
    rcases List.mem_append.mp ht with ht | ht
    · exact absurd hkind (hbody t ht).1
    · rw [List.mem_singleton.mp ht]
      exact ⟨text.toList, [], (List.append_nil _).symm, (byteLength_toList text).symm⟩
  · obtain ⟨before, after, htext, hstart, -⟩ := h.exact t ht hkind
    exact ⟨before, _, by rw [htext, List.append_assoc], hstart⟩

theorem Fault.Placed.exists_cut {text : String} {fault : Fault} (h : fault.Placed text) :
    ∃ before after, text.toList = before ++ after ∧ fault.offset = byteLength before := by
  unfold Fault.Placed at h
  split at h
  · obtain ⟨before, c, after, htext, hoffset, -⟩ := h
    exact ⟨before, c :: after, htext, hoffset⟩
  · next tokens hscan =>
    rcases h with rfl | ⟨-, t, ht, hoffset⟩
    · exact ⟨[], text.toList, rfl, rfl⟩
    · rw [hoffset]
      exact (Token.tiling_of_scan hscan).exists_cut ht

theorem Tree.fault_of_ofText {text : String} {fault : Fault} (h : ofText text = .error fault) :
    fault.Placed text ∧ fault.cause.isSyntactic := by
  unfold ofText at h
  unfold Fault.Placed
  cases hscan : Token.scan text with
  | error stuck =>
    obtain ⟨before, c, after, -, -, hstuck, -⟩ := Token.stopsShort_of_scan hscan
    rw [hscan] at h
    cases h
    exact ⟨Token.stuckAt_of_scan hscan, by rw [hstuck]; rfl⟩
  | ok tokens =>
    obtain ⟨body, htokens, -⟩ := (Token.tiles_of_scan hscan).closed
    rw [hscan] at h
    rcases ofTokens_at htokens h with rfl | hraised
    · exact ⟨Or.inl rfl, rfl⟩
    · exact ⟨Or.inr hraised.located, hraised.syntactic⟩

theorem Source.placed_of_error {source : Source} {e : Failure} (h : source.tree = .error e) :
    e.source = source ∧ e.toFault.Placed source.text ∧ e.PointsInto := by
  obtain ⟨rfl, hread⟩ := Source.tree_eq_error_iff.mp h
  obtain ⟨hplaced, -⟩ := Tree.fault_of_ofText hread
  obtain ⟨before, after, htext, hoffset⟩ := hplaced.exists_cut
  exact ⟨rfl, hplaced, .intro htext hoffset⟩

end ValueSyntax
