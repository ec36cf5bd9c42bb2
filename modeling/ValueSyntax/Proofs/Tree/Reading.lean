import Mathlib.Tactic.ByCases
import ValueSyntax.Proofs.Tree.Grammar

namespace ValueSyntax.Tree

/-- The function returns a value and leaves the rest of the tokens. -/
def Reads {α : Type} {P : α × List Token → Prop} (x : Except Fault { r // P r }) (a : α)
    (rest : List Token) : Prop :=
  ∃ h, x = .ok ⟨(a, rest), h⟩

/-- The function finds a multiplier and leaves the rest of the tokens. -/
def Finds {α : Type} {P : α × List Token → Prop} (x : Except Fault (Option { r // P r })) (a : α)
    (rest : List Token) : Prop :=
  ∃ h, x = .ok (some ⟨(a, rest), h⟩)

variable {last : Token} {ts rest : List Token}

@[simp] theorem reads_error {α : Type} {P : α × List Token → Prop} {fault : Fault} {a : α} :
    ¬ Reads (.error fault : Except Fault { r // P r }) a rest := by
  rintro ⟨_, h⟩
  cases h

@[simp] theorem reads_ok {α : Type} {P : α × List Token → Prop} {r : { r // P r }} {a : α} :
    Reads (.ok r : Except Fault { r // P r }) a rest ↔ r.val = (a, rest) := by
  constructor
  · rintro ⟨_, h⟩
    cases h
    rfl
  · obtain ⟨_, h⟩ := r
    rintro rfl
    exact ⟨h, rfl⟩

theorem Reads.length_lt {α : Type} {x : Except Fault (Shorter α ts)} {a : α}
    (h : Reads x a rest) : rest.length < ts.length := by
  obtain ⟨h, _⟩ := h
  exact h

theorem reads_closed {closing : Token.Kind} {opening : String} {openedAt : Nat} :
    Reads (closed last closing opening openedAt ts) () rest ↔
      ∃ c, ts = c :: rest ∧ c.kind = closing := by
  match ts with
  | [] => simp [closed]
  | t :: ts =>
    by_cases h : t.kind = closing
    · simp only [closed, h, if_true, reads_ok, Prod.mk.injEq, List.cons.injEq]
      grind
    · simp only [closed, h, if_false, reads_error, false_iff]
      grind

theorem reads_repeatCount {n : Nat} :
    Reads (repeatCount last ts) n rest ↔
      ∃ a, ts = a :: rest ∧ a.kind = .number ∧ Number.count32? a.value.toList = some n := by
  match ts with
  | [] => simp [repeatCount]
  | t :: ts =>
    by_cases h : t.kind = .number
    · cases hn : Number.count32? t.value.toList with
      | none => simp only [repeatCount, h, hn, if_true, reads_error, false_iff]; grind
      | some m => simp only [repeatCount, h, hn, if_true, reads_ok]; grind
    · simp only [repeatCount, h, if_false, reads_error, false_iff]
      grind

@[simp] theorem startsWith_cons {kind : Token.Kind} {t : Token} :
    startsWith kind (t :: ts) = decide (t.kind = kind) := rfl

theorem reads_repeatMaximum {min : Nat} {max : Option Nat} :
    Reads (repeatMaximum last min ts) max rest ↔
      (∃ s ts₁ m, ts = s :: ts₁ ∧ s.kind = .comma ∧ startsWith .number ts₁ ∧
        Reads (repeatCount last ts₁) m rest ∧ max = some m) ∨
      (∃ s, ts = s :: rest ∧ s.kind = .comma ∧ startsWith .number rest = false ∧ max = none) ∨
      (startsWith .comma ts = false ∧ ts = rest ∧ max = some min) := by
  match ts with
  | [] =>
    simp [repeatMaximum, startsWith]
    grind
  | s :: ts =>
    by_cases hs : s.kind = .comma
    · by_cases hn : startsWith .number ts
      · simp only [repeatMaximum, hs, hn, if_true, startsWith_cons]
        constructor
        · intro h
          split at h
          · exact absurd h reads_error
          · next m ts₁ h₁ hx =>
            cases reads_ok.mp h
            exact Or.inl ⟨s, ts, m, rfl, hs, hn, ⟨h₁, hx⟩, rfl⟩
        · rintro (⟨s', ts', m, hts, -, -, ⟨h₁, hx⟩, rfl⟩ | ⟨s', hts, -, hn', -⟩ | ⟨h, -, -⟩)
          · cases hts
            simp [hx]
          · cases hts
            simp [hn] at hn'
          · simp at h
      · simp only [repeatMaximum, hs, hn, if_true, startsWith_cons]
        simp
        grind
    · simp only [repeatMaximum, hs, startsWith_cons, if_false, reads_ok]
      grind

theorem reads_counted {separator : Separator} {openedAt : Nat} {m : Multiplier} :
    Reads (counted last separator openedAt ts) m rest ↔ ∃ ts₁ ts₂,
      Reads (repeatCount last ts) m.min ts₁ ∧ Reads (repeatMaximum last m.min ts₁) m.max ts₂ ∧
      Reads (closed last .closeCurly "\x7b" openedAt ts₂) () rest ∧
      reversedCounts m.min m.max = false ∧ m.separator = separator := by
  unfold counted
  constructor
  · intro h
    split at h
    · exact absurd h reads_error
    · next min ts₁ h₁ hx =>
      split at h
      · exact absurd h reads_error
      · next max ts₂ h₂ hy =>
        split at h
        · exact absurd h reads_error
        · next ts₃ h₃ hz =>
          split at h
          · exact absurd h reads_error
          · next hr =>
            cases reads_ok.mp h
            exact ⟨ts₁, ts₂, ⟨h₁, hx⟩, ⟨h₂, hy⟩, ⟨h₃, hz⟩, by simpa using hr, rfl⟩
  · rintro ⟨ts₁, ts₂, ⟨h₁, hx⟩, ⟨h₂, hy⟩, ⟨h₃, hz⟩, hr, rfl⟩
    simp [hx, hy, hz, hr]

theorem reads_braced_cons {separator : Separator} {m : Multiplier} {o : Token} :
    Reads (braced last separator (o :: ts)) m rest ↔
      Reads (counted last separator o.start ts) m rest := by
  rw [braced]
  constructor
  · intro h
    split at h
    · exact absurd h reads_error
    · next hx =>
      rw [hx, reads_ok]
      exact (reads_ok.mp h :)
  · rintro ⟨h, hx⟩
    simp [hx]

theorem Reads.counts {separator : Separator} {m : Multiplier} {o : Token}
    (ho : o.kind = .openCurly) (h : Reads (counted last separator o.start ts) m rest) :
    ∃ used, o :: ts = used ++ rest ∧ Counts used m.min m.max ∧ m.separator = separator := by
  simp only [reads_counted, reads_repeatCount, reads_repeatMaximum, reads_closed] at h
  obtain ⟨_, ts₂, ⟨a, rfl, ha, hn⟩, hmax, ⟨c, rfl, hc⟩, hr, rfl⟩ := h
  rcases hmax with ⟨s, _, n, rfl, hs, -, ⟨b, rfl, hb, hm⟩, hmax⟩ | ⟨s, rfl, hs, -, hmax⟩ |
    ⟨-, rfl, hmax⟩
  · rw [hmax] at hr ⊢
    have hle : m.min ≤ n := by simpa [reversedCounts] using hr
    exact ⟨[o, a, s, b, c], rfl, .between ho ha hn hs hb hm hle hc, rfl⟩
  · rw [hmax]
    exact ⟨[o, a, s, c], rfl, .atLeast ho ha hn hs hc, rfl⟩
  · rw [hmax]
    exact ⟨[o, a, c], rfl, .exactly ho ha hn hc, rfl⟩

theorem Counts.reads_counted {min : Nat} {max : Option Nat} {separator : Separator} {o : Token}
    {used : List Token} (h : Counts (o :: used) min max) :
    Reads (counted last separator o.start (used ++ rest)) ⟨min, max, separator⟩ rest := by
  simp only [Tree.reads_counted, reads_repeatCount, reads_repeatMaximum, reads_closed]
  cases h with
  | exactly _ ha hn hc =>
    refine ⟨_, _, ⟨_, rfl, ha, hn⟩, Or.inr (Or.inr ⟨?_, rfl, rfl⟩), ⟨_, rfl, hc⟩, ?_, trivial⟩
    · simp [hc]
    · simp [reversedCounts]
  | atLeast _ ha hn hs hc =>
    refine ⟨_, _, ⟨_, rfl, ha, hn⟩, Or.inr (Or.inl ⟨_, rfl, hs, ?_, rfl⟩), ⟨_, rfl, hc⟩, rfl,
      trivial⟩
    simp [hc]
  | between _ ha hn hs hb hm hle hc =>
    refine ⟨_, _, ⟨_, rfl, ha, hn⟩, Or.inl ⟨_, _, _, rfl, hs, ?_, ⟨_, rfl, hb, hm⟩, rfl⟩,
      ⟨_, rfl, hc⟩, ?_, trivial⟩
    · simp [hb]
    · simpa [reversedCounts] using hle

theorem Counts.exists_cons {used : List Token} {min : Nat} {max : Option Nat}
    (h : Counts used min max) : ∃ o us, used = o :: us ∧ o.kind = .openCurly := by
  cases h <;> exact ⟨_, _, rfl, by assumption⟩

theorem reads_braced {separator : Separator} {m : Multiplier}
    (ho : startsWith .openCurly ts) :
    Reads (braced last separator ts) m rest ↔
      ∃ used, ts = used ++ rest ∧ Counts used m.min m.max ∧ m.separator = separator := by
  match ts with
  | [] => simp [startsWith] at ho
  | o :: ts =>
    rw [reads_braced_cons]
    constructor
    · exact Reads.counts (by simpa using ho)
    · rintro ⟨used, hused, hcounts, rfl⟩
      obtain ⟨o', us, rfl, -⟩ := hcounts.exists_cons
      cases hused
      exact hcounts.reads_counted

theorem Finds.length_lt {α : Type} {x : Except Fault (Option (Shorter α ts))} {a : α}
    (h : Finds x a rest) : rest.length < ts.length := by
  obtain ⟨h, _⟩ := h
  exact h

/-- A multiplier starts with a token that can stand nowhere else. -/
theorem Multiplies.exists_cons {operand : Tree} {used : List Token} {m : Multiplier}
    (h : Multiplies operand used m) : ∃ t us, used = t :: us ∧ t.kind.isMultiplier := by
  cases h with
  | star h => exact ⟨_, _, rfl, by simp [h, Token.Kind.isMultiplier]⟩
  | plus h => exact ⟨_, _, rfl, by simp [h, Token.Kind.isMultiplier]⟩
  | question h => exact ⟨_, _, rfl, by simp [h, Token.Kind.isMultiplier]⟩
  | exclamation h => exact ⟨_, _, rfl, by simp [h, Token.Kind.isMultiplier]⟩
  | hash h => exact ⟨_, _, rfl, by simp [h, Token.Kind.isMultiplier]⟩
  | counts h => cases h <;> exact ⟨_, _, rfl, by simp [*, Token.Kind.isMultiplier]⟩
  | hashCounts h => exact ⟨_, _, rfl, by simp [h, Token.Kind.isMultiplier]⟩

theorem Counts.startsWith_openCurly {used : List Token} {min : Nat} {max : Option Nat}
    (h : Counts used min max) (rest : List Token) : startsWith .openCurly (used ++ rest) := by
  obtain ⟨o, us, rfl, ho⟩ := h.exists_cons
  simp [ho]

theorem Counts.not_endsInHash {used : List Token} {min : Nat} {max : Option Nat}
    (h : Counts used min max) : ¬ EndsInHash used := by
  rintro ⟨t, ht, hk⟩
  cases h <;> simp_all

theorem endsInHash_append {us : List Token} (h : us ≠ []) :
    EndsInHash (ts ++ us) ↔ EndsInHash us := by
  unfold EndsInHash
  rw [List.getLast?_append, List.getLast?_eq_some_getLast h]
  rfl

theorem Counts.ne_nil {used : List Token} {min : Nat} {max : Option Nat}
    (h : Counts used min max) : used ≠ [] := by
  cases h <;> simp

theorem Counts.hash_not_endsInHash {t : Token} {used : List Token} {min : Nat} {max : Option Nat}
    (h : Counts used min max) : ¬ EndsInHash (t :: used) := by
  rw [← List.singleton_append, endsInHash_append h.ne_nil]
  exact h.not_endsInHash

/-- The tokens start with those of a multiplier, and no brace behind them belongs to it. -/
abbrev StartsWithMultiplier (operand : Tree) (ts : List Token) (m : Multiplier)
    (rest : List Token) : Prop :=
  ∃ used, ts = used ++ rest ∧ Multiplies operand used m ∧
    (EndsInHash used → startsWith .openCurly rest = false)

theorem StartsWithMultiplier.mark {operand : Tree} {m : Multiplier} {t : Token}
    (h : Multiplies operand [t] m) (hk : t.kind ≠ .hash) :
    StartsWithMultiplier operand (t :: ts) m ts :=
  ⟨[t], rfl, h, by simp [EndsInHash, hk]⟩

theorem StartsWithMultiplier.of_hash {operand : Tree} {t : Token} {m : Multiplier}
    (hk : t.kind = .hash) (h : Finds (multiplier? last operand (t :: ts)) m rest) :
    StartsWithMultiplier operand (t :: ts) m rest := by
  obtain ⟨min, max, separator⟩ := m
  obtain ⟨_, h⟩ := h
  simp only [multiplier?, hk] at h
  split at h
  · next ho =>
    split at h
    · cases h
    · next hx =>
      cases h
      obtain ⟨used, rfl, hcounts, rfl⟩ := (reads_braced ho).mp ⟨_, hx⟩
      exact ⟨t :: used, rfl, .hashCounts hk hcounts, fun h => absurd h hcounts.hash_not_endsInHash⟩
  · next ho =>
    cases h
    exact ⟨[t], rfl, .hash hk, fun _ => by simpa using ho⟩

theorem StartsWithMultiplier.of_brace {operand : Tree} {t : Token} {m : Multiplier}
    (hk : t.kind = .openCurly) (h : Finds (multiplier? last operand (t :: ts)) m rest) :
    StartsWithMultiplier operand (t :: ts) m rest := by
  obtain ⟨min, max, separator⟩ := m
  obtain ⟨_, h⟩ := h
  simp only [multiplier?, hk] at h
  split at h
  · cases h
  · next hx =>
    cases h
    obtain ⟨used, hused, hcounts, rfl⟩ := (reads_braced (by simp [hk])).mp ⟨_, hx⟩
    exact ⟨used, hused, .counts hcounts, fun h => absurd h hcounts.not_endsInHash⟩

theorem Finds.startsWithMultiplier {operand : Tree} {m : Multiplier}
    (h : Finds (multiplier? last operand ts) m rest) : StartsWithMultiplier operand ts m rest := by
  match ts with
  | [] => simp [Finds, multiplier?] at h
  | t :: ts =>
    have hfinds := h
    obtain ⟨_, h⟩ := h
    rw [multiplier?] at h
    split at h
    · next hk =>
      cases h
      exact .mark (.star hk) (by simp [hk])
    · next hk =>
      cases h
      exact .mark (.plus hk) (by simp [hk])
    · next hk =>
      cases h
      exact .mark (.question hk) (by simp [hk])
    · next hk =>
      split at h
      · next hb =>
        cases h
        exact .mark (.exclamation hk hb) (by simp [hk])
      · cases h
    · next hk => exact .of_hash hk hfinds
    · next hk => exact .of_brace hk hfinds
    · cases h

theorem Multiplies.finds {operand : Tree} {used : List Token} {m : Multiplier}
    (h : Multiplies operand used m) (hash : EndsInHash used → startsWith .openCurly rest = false) :
    Finds (multiplier? last operand (used ++ rest)) m rest := by
  cases h with
  | star h => exact ⟨by simp, by simp [multiplier?, h]⟩
  | plus h => exact ⟨by simp, by simp [multiplier?, h]⟩
  | question h => exact ⟨by simp, by simp [multiplier?, h]⟩
  | exclamation h hb => exact ⟨by simp, by simp [multiplier?, h, hb]⟩
  | hash h => exact ⟨by simp, by simp [multiplier?, h, hash ⟨_, rfl, h⟩]⟩
  | @counts _ min max h =>
    have ho := h.startsWith_openCurly rest
    obtain ⟨hlt, hx⟩ := (@reads_braced last _ rest .space ⟨min, max, .space⟩ ho).mpr
      ⟨_, rfl, h, rfl⟩
    refine ⟨hlt, ?_⟩
    cases h <;> simp_all [multiplier?]
  | @hashCounts _ _ min max ht h =>
    have ho := h.startsWith_openCurly rest
    obtain ⟨hlt, hx⟩ := (@reads_braced last _ rest .comma ⟨min, max, .comma⟩ ho).mpr
      ⟨_, rfl, h, rfl⟩
    exact ⟨Nat.lt_succ_of_lt hlt, by simp [multiplier?, ht, ho, hx]⟩

theorem finds_multiplier {operand : Tree} {m : Multiplier} :
    Finds (multiplier? last operand ts) m rest ↔ StartsWithMultiplier operand ts m rest := by
  constructor
  · exact Finds.startsWithMultiplier
  · rintro ⟨used, rfl, hm, hash⟩
    exact hm.finds hash

theorem multiplier?_eq_none {operand : Tree} :
    multiplier? last operand ts = .ok none ↔ ∀ t ∈ ts.head?, t.kind.isMultiplier = false := by
  match ts with
  | [] => simp [multiplier?]
  | t :: ts =>
    simp only [multiplier?, List.head?_cons, Option.mem_some_iff, forall_eq']
    split <;> simp_all [Token.Kind.isMultiplier]
    · split <;> simp
    · split
      · split <;> simp
      · simp
    · split <;> simp

theorem reads_multipliedBy {inner t : Tree} :
    Reads (multipliedBy last inner ts) t rest ↔
      (multiplier? last inner ts = .ok none ∧ t = inner ∧ ts = rest) ∨
      ∃ m ts₁, Finds (multiplier? last inner ts) m ts₁ ∧
        Reads (multipliedBy last (multiplied inner m) ts₁) t rest := by
  rw [multipliedBy]
  constructor
  · intro h
    split at h
    · exact absurd h reads_error
    · next hx =>
      cases reads_ok.mp h
      exact Or.inl ⟨hx, rfl, rfl⟩
    · next m ts₁ h₁ hx =>
      split at h
      · exact absurd h reads_error
      · next r _ hy =>
        refine Or.inr ⟨m, ts₁, ⟨h₁, hx⟩, ?_⟩
        rw [hy, reads_ok]
        exact (reads_ok.mp h :)
  · rintro (⟨hx, rfl, rfl⟩ | ⟨m, ts₁, ⟨h₁, hx⟩, ⟨h₂, hy⟩⟩)
    · simp [hx]
    · simp [hx, hy]

theorem reads_level {c : Connective} {t : Tree} :
    Reads (level last c ts) t rest ↔ ∃ first ts₁ more, Reads (operand last c ts) first ts₁ ∧
      Reads (others last c ts₁) more rest ∧ t = c.join first more := by
  rw [level]
  constructor
  · intro h
    split at h
    · exact absurd h reads_error
    · next first ts₁ h₁ hx =>
      split at h
      · exact absurd h reads_error
      · next more ts₂ h₂ hy =>
        cases reads_ok.mp h
        exact ⟨first, ts₁, more, ⟨h₁, hx⟩, ⟨h₂, hy⟩, rfl⟩
  · rintro ⟨first, ts₁, more, ⟨h₁, hx⟩, ⟨h₂, hy⟩, rfl⟩
    simp [hx, hy]

theorem reads_juxtaposed {t : Tree} :
    Reads (operand last .juxtaposition ts) t rest ↔
      ∃ inner ts₁, Reads (term last ts) inner ts₁ ∧
        Reads (multipliedBy last inner ts₁) t rest := by
  rw [operand]
  constructor
  · intro h
    split at h
    · exact absurd h reads_error
    · next inner ts₁ h₁ hx =>
      split at h
      · exact absurd h reads_error
      · next hy =>
        refine ⟨inner, ts₁, ⟨h₁, hx⟩, ?_⟩
        rw [hy, reads_ok]
        exact (reads_ok.mp h :)
  · rintro ⟨inner, ts₁, ⟨h₁, hx⟩, ⟨h₂, hy⟩⟩
    simp [hx, hy]

theorem reads_others {c : Connective} {more : List Tree} :
    Reads (others last c ts) more rest ↔
      (c.next? ts = none ∧ more = [] ∧ ts = rest) ∨
      ∃ ts₁ t ts₂ more', (∃ h, c.next? ts = some ⟨((), ts₁), h⟩) ∧
        Reads (operand last c ts₁) t ts₂ ∧ Reads (others last c ts₂) more' rest ∧
        more = t :: more' := by
  rw [others]
  constructor
  · intro h
    split at h
    · next hx =>
      cases reads_ok.mp h
      exact Or.inl ⟨hx, rfl, rfl⟩
    · next ts₁ h₁ hx =>
      split at h
      · exact absurd h reads_error
      · next t ts₂ h₂ hy =>
        split at h
        · exact absurd h reads_error
        · next more' ts₃ h₃ hz =>
          cases reads_ok.mp h
          exact Or.inr ⟨ts₁, t, ts₂, more', ⟨h₁, hx⟩, ⟨h₂, hy⟩, ⟨h₃, hz⟩, rfl⟩
  · rintro (⟨hx, rfl, rfl⟩ | ⟨ts₁, t, ts₂, more', ⟨h₁, hx⟩, ⟨h₂, hy⟩, ⟨h₃, hz⟩, rfl⟩)
    · split
      · simp
      · next hx' => cases hx.symm.trans hx'
    · split
      · next hx' => cases hx.symm.trans hx'
      · next hx' =>
        cases hx.symm.trans hx'
        simp [hy, hz]

theorem reads_enclosed {closing : Token.Kind} {opening : String} {openedAt : Nat} {inner : Tree} :
    Reads (enclosed last closing opening openedAt ts) inner rest ↔
      ∃ c, Reads (level last .oneOf ts) inner (c :: rest) ∧ c.kind = closing := by
  rw [enclosed]
  constructor
  · intro h
    split at h
    · exact absurd h reads_error
    · next ts₁ h₁ hx =>
      split at h
      · exact absurd h reads_error
      · next ts₂ h₂ hy =>
        cases reads_ok.mp h
        obtain ⟨c, rfl, hc⟩ := reads_closed.mp ⟨h₂, hy⟩
        exact ⟨c, ⟨h₁, hx⟩, hc⟩
  · rintro ⟨c, ⟨h₁, hx⟩, hc⟩
    obtain ⟨h₂, hy⟩ := (@reads_closed last (c :: rest) rest closing opening openedAt).mpr
      ⟨c, rfl, hc⟩
    simp [hx, hy]

theorem reads_term_openBracket {o : Token} {t : Tree} (hk : o.kind = .openBracket) :
    Reads (term last (o :: ts)) t rest ↔ ∃ inner, t = group inner true ∧
      Reads (enclosed last .closeBracket "[" o.start ts) inner rest := by
  simp only [term, hk]
  constructor
  · intro h
    split at h
    · exact absurd h reads_error
    · next inner ts₁ h₁ hx =>
      cases reads_ok.mp h
      exact ⟨inner, rfl, h₁, hx⟩
  · rintro ⟨inner, rfl, h, hx⟩
    simp [hx]

theorem reads_term_openParen {o : Token} {t : Tree} (hk : o.kind = .openParen) :
    Reads (term last (o :: ts)) t rest ↔ ∃ inner, t = group inner false ∧
      Reads (enclosed last .closeParen "(" o.start ts) inner rest := by
  simp only [term, hk]
  constructor
  · intro h
    split at h
    · exact absurd h reads_error
    · next inner ts₁ h₁ hx =>
      cases reads_ok.mp h
      exact ⟨inner, rfl, h₁, hx⟩
  · rintro ⟨inner, rfl, h, hx⟩
    simp [hx]

theorem reads_term_emptyFunction {f : Token} {t : Tree} (hk : f.kind = .function)
    (hc : startsWith .closeParen ts) :
    Reads (term last (f :: ts)) t rest ↔ ∃ c, ts = c :: rest ∧ c.kind = .closeParen ∧
      t = function f.value noArguments := by
  match ts with
  | [] => simp [startsWith] at hc
  | c :: ts =>
    simp only [term, hk, hc, if_true, reads_ok, List.tail_cons]
    grind [startsWith_cons]

theorem reads_term_function {f : Token} {t : Tree} (hk : f.kind = .function)
    (hc : startsWith .closeParen ts = false) :
    Reads (term last (f :: ts)) t rest ↔ ∃ inner, t = function f.value inner ∧
      Reads (enclosed last .closeParen "(" f.start ts) inner rest := by
  simp only [term, hk, hc, Bool.false_eq_true, if_false]
  constructor
  · intro h
    split at h
    · exact absurd h reads_error
    · next inner ts₁ h₁ hx =>
      cases reads_ok.mp h
      exact ⟨inner, rfl, h₁, hx⟩
  · rintro ⟨inner, rfl, h, hx⟩
    simp [hx]

theorem reads_term_leaf {a : Token} {t : Tree} (hb : a.kind ≠ .openBracket)
    (hp : a.kind ≠ .openParen) (hf : a.kind ≠ .function) :
    Reads (term last (a :: ts)) t rest ↔ ofLeaf? a = some (.ok t) ∧ ts = rest := by
  rw [term]
  split
  · contradiction
  · contradiction
  · contradiction
  · split <;> simp_all

theorem reads_term {t : Tree} :
    Reads (term last ts) t rest ↔
      (∃ o ts₁ inner, ts = o :: ts₁ ∧ o.kind = .openBracket ∧ t = group inner true ∧
        Reads (enclosed last .closeBracket "[" o.start ts₁) inner rest) ∨
      (∃ o ts₁ inner, ts = o :: ts₁ ∧ o.kind = .openParen ∧ t = group inner false ∧
        Reads (enclosed last .closeParen "(" o.start ts₁) inner rest) ∨
      (∃ f c, ts = f :: c :: rest ∧ f.kind = .function ∧ c.kind = .closeParen ∧
        t = function f.value noArguments) ∨
      (∃ f ts₁ inner, ts = f :: ts₁ ∧ f.kind = .function ∧ startsWith .closeParen ts₁ = false ∧
        t = function f.value inner ∧ Reads (enclosed last .closeParen "(" f.start ts₁) inner rest) ∨
      (∃ a, ts = a :: rest ∧ ofLeaf? a = some (.ok t)) := by
  constructor
  · intro h
    match ts with
    | [] => simp [term] at h
    | o :: ts =>
      by_cases hb : o.kind = .openBracket
      · obtain ⟨inner, ht, h⟩ := (reads_term_openBracket hb).mp h
        exact Or.inl ⟨o, ts, inner, rfl, hb, ht, h⟩
      by_cases hp : o.kind = .openParen
      · obtain ⟨inner, ht, h⟩ := (reads_term_openParen hp).mp h
        exact Or.inr (Or.inl ⟨o, ts, inner, rfl, hp, ht, h⟩)
      by_cases hf : o.kind = .function
      · cases hc : startsWith .closeParen ts with
        | true =>
          obtain ⟨c, rfl, hclose, ht⟩ := (reads_term_emptyFunction hf hc).mp h
          exact Or.inr (Or.inr (Or.inl ⟨o, c, rfl, hf, hclose, ht⟩))
        | false =>
          obtain ⟨inner, ht, h⟩ := (reads_term_function hf hc).mp h
          exact Or.inr (Or.inr (Or.inr (Or.inl ⟨o, ts, inner, rfl, hf, hc, ht, h⟩)))
      obtain ⟨hleaf, rfl⟩ := (reads_term_leaf hb hp hf).mp h
      exact Or.inr (Or.inr (Or.inr (Or.inr ⟨o, rfl, hleaf⟩)))
  · rintro (⟨o, ts₁, inner, rfl, hk, h⟩ | ⟨o, ts₁, inner, rfl, hk, h⟩ | ⟨f, c, rfl, hf, hc, ht⟩ |
      ⟨f, ts₁, inner, rfl, hf, hc, h⟩ | ⟨a, rfl, ha⟩)
    · exact (reads_term_openBracket hk).mpr ⟨inner, h⟩
    · exact (reads_term_openParen hk).mpr ⟨inner, h⟩
    · exact (reads_term_emptyFunction hf (by simp [hc])).mpr ⟨c, rfl, hc, ht⟩
    · exact (reads_term_function hf hc).mpr ⟨inner, h⟩
    · have hopens : a.kind ≠ .openBracket ∧ a.kind ≠ .openParen ∧ a.kind ≠ .function := by
        refine ⟨?_, ?_, ?_⟩ <;> rintro hk <;> simp [ofLeaf?, hk] at ha
      exact (reads_term_leaf hopens.1 hopens.2.1 hopens.2.2).mpr ⟨ha, rfl⟩

end ValueSyntax.Tree
