import Mathlib.Logic.Function.Basic
import ValueSyntax.Proofs.Tree.Reading

namespace ValueSyntax

theorem Connective.next?_eq_some {c : Connective} {ts ts₁ : List Token} :
    (∃ h, c.next? ts = some ⟨((), ts₁), h⟩) ↔
      (∃ kind mark, c.kind? = some kind ∧ ts = mark :: ts₁ ∧ mark.kind = kind) ∨
      (c.kind? = none ∧ ts = ts₁ ∧ ∃ t ∈ ts.head?, t.kind.startsTerm) := by
  match ts with
  | [] => simp [next?]
  | t :: ts =>
    simp only [next?]
    cases hk : c.kind? with
    | none =>
      by_cases ht : t.kind.startsTerm
      · simp only [ht, if_true, List.head?_cons, Option.mem_some_iff]
        grind
      · simp [ht]
    | some kind =>
      by_cases ht : t.kind = kind
      · simp only [ht, if_true, Option.some.injEq]
        grind
      · simp only [ht, if_false]
        grind

namespace Tree

theorem Derives.not_endsInHash {ts : List Token} {t : Tree} (h : Derives .term ts t) :
    ¬ EndsInHash ts := by
  rintro ⟨x, hx, hk⟩
  cases h with
  | @leaf tok _ h =>
    obtain rfl : tok = x := by simpa using hx
    simp [ofLeaf?, hk] at h
  | brackets _ _ hc => simp_all [List.getLast?_cons]
  | parentheses _ _ hc => simp_all [List.getLast?_cons]
  | emptyFunction _ hc => simp_all
  | function _ _ hc => simp_all [List.getLast?_cons]

theorem Joins.of_singleton {c : Connective} {ts joinedTs : List Token}
    (h : Joins c [ts] joinedTs) : joinedTs = ts := by
  cases h with
  | last => rfl
  | marked _ _ h => cases h
  | adjacent _ h => cases h

theorem derives_multipliedBy {last : Token} {pre ts rest : List Token} {inner t : Tree}
    (h : Reads (multipliedBy last inner ts) t rest) (hinner : Derives .repeated pre inner)
    (hash : EndsInHash pre → startsWith .openCurly ts = false) :
    ∃ used, ts = used ++ rest ∧ Derives .repeated (pre ++ used) t := by
  rcases reads_multipliedBy.mp h with ⟨-, rfl, rfl⟩ | ⟨m, ts₁, hfinds, h₁⟩
  · exact ⟨[], rfl, by simpa using hinner⟩
  · have hlt := hfinds.length_lt
    obtain ⟨ms, hms, hm, hash₁⟩ := finds_multiplier.mp hfinds
    obtain ⟨x, us, rfl, _⟩ := hm.exists_cons
    have hmult := Derives.multiplied hinner hm fun h => by
      rw [hms] at hash
      exact hash h
    -- The multiplier joins the tokens before it, and is the last of them.
    obtain ⟨used, hused, ht⟩ := derives_multipliedBy h₁ hmult
      fun h => hash₁ ((endsInHash_append (by simp)).mp h)
    exact ⟨x :: us ++ used, by simp [hms, hused], by simpa using ht⟩
termination_by ts.length

mutual

theorem derives_level {last : Token} {c : Connective} {ts rest : List Token} {t : Tree}
    (h : Reads (level last c ts) t rest) :
    ∃ used, ts = used ++ rest ∧ Derives (.level c) used t := by
  obtain ⟨first, ts₁, more, h₁, h₂, rfl⟩ := reads_level.mp h
  have hlt := h₁.length_lt
  obtain ⟨used₁, rfl, hfirst⟩ := derives_operand h₁
  obtain ⟨used₂, parts, rfl, htrees, hparts, hjoins⟩ := derives_others h₂ hfirst
  refine ⟨used₁ ++ used₂, by simp, ?_⟩
  unfold Connective.join
  split
  · next hmore =>
    obtain ⟨ts', rfl⟩ : ∃ ts', parts = [(ts', first)] := by
      rw [hmore] at htrees
      simpa [List.map_eq_cons_iff] using htrees
    rw [Joins.of_singleton hjoins]
    exact .single (hparts _ (List.mem_singleton_self _))
  · next hmore =>
    rw [← htrees]
    refine .joined ?_ hparts hjoins
    have hlen := congrArg List.length htrees
    have hpos := List.length_pos_iff.mpr hmore
    simp only [List.length_map, List.length_cons] at hlen
    omega
termination_by 10 * ts.length + 2 * c.looseness + 2

theorem derives_operand {last : Token} {c : Connective} {ts rest : List Token} {t : Tree}
    (h : Reads (operand last c ts) t rest) :
    ∃ used, ts = used ++ rest ∧ Derives (.operandOf c) used t := by
  match c with
  | .oneOf => exact derives_level (by rwa [operand] at h)
  | .anyOrder => exact derives_level (by rwa [operand] at h)
  | .allRequired => exact derives_level (by rwa [operand] at h)
  | .juxtaposition =>
    obtain ⟨inner, ts₁, h₁, h₂⟩ := reads_juxtaposed.mp h
    obtain ⟨used₁, rfl, hinner⟩ := derives_term h₁
    obtain ⟨used₂, rfl, ht⟩ := derives_multipliedBy h₂ (.once hinner)
      fun hash => absurd hash hinner.not_endsInHash
    exact ⟨used₁ ++ used₂, by simp, ht⟩
termination_by 10 * ts.length + 2 * c.looseness + 1
decreasing_by all_goals simp only [Connective.looseness]; omega

theorem derives_others {last : Token} {c : Connective} {pre ts rest : List Token} {first : Tree}
    {more : List Tree} (h : Reads (others last c ts) more rest)
    (hfirst : Derives (.operandOf c) pre first) :
    ∃ (used : List Token) (parts : List (List Token × Tree)), ts = used ++ rest ∧
      parts.map Prod.snd = first :: more ∧
      (∀ p ∈ parts, Derives (.operandOf c) p.1 p.2) ∧
      Joins c (parts.map Prod.fst) (pre ++ used) := by
  rcases reads_others.mp h with ⟨-, rfl, rfl⟩ | ⟨ts₁, t, ts₂, more', hnext, h₁, h₂, rfl⟩
  · exact ⟨[], [(pre, first)], rfl, rfl, by simpa using hfirst, by simpa using Joins.last pre⟩
  · have hle : ts₁.length ≤ ts.length := hnext.1
    have hlt := h₁.length_lt
    obtain ⟨used₁, rfl, ht⟩ := derives_operand h₁
    obtain ⟨used₂, parts, rfl, htrees, hparts, hjoins⟩ := derives_others h₂ ht
    have hall : ∀ p ∈ (pre, first) :: parts, Derives (.operandOf c) p.1 p.2 :=
      List.forall_mem_cons.mpr ⟨hfirst, hparts⟩
    rcases Connective.next?_eq_some.mp hnext with ⟨kind, mark, hk, rfl, hmark⟩ | ⟨hk, rfl, -⟩
    · refine ⟨mark :: (used₁ ++ used₂), (pre, first) :: parts, by simp, by simp [htrees], hall, ?_⟩
      exact .marked hk hmark hjoins
    · refine ⟨used₁ ++ used₂, (pre, first) :: parts, by simp, by simp [htrees], hall, ?_⟩
      exact .adjacent hk hjoins
termination_by 10 * ts.length + 2 * c.looseness + 2

theorem derives_enclosed {last : Token} {closing : Token.Kind} {opening : String}
    {openedAt : Nat} {ts rest : List Token} {inner : Tree}
    (h : Reads (enclosed last closing opening openedAt ts) inner rest) :
    ∃ used c, ts = used ++ c :: rest ∧ Derives (.level .oneOf) used inner ∧ c.kind = closing := by
  obtain ⟨c, h₁, hc⟩ := reads_enclosed.mp h
  obtain ⟨used, hused, hinner⟩ := derives_level h₁
  exact ⟨used, c, hused, hinner, hc⟩
termination_by 10 * ts.length + 9
decreasing_by all_goals simp only [Connective.looseness]; omega

theorem derives_term {last : Token} {ts rest : List Token} {t : Tree}
    (h : Reads (term last ts) t rest) :
    ∃ used, ts = used ++ rest ∧ Derives .term used t := by
  rcases reads_term.mp h with ⟨o, ts₁, inner, rfl, ho, rfl, h₁⟩ |
    ⟨o, ts₁, inner, rfl, ho, rfl, h₁⟩ | ⟨f, c, rfl, hf, hc, rfl⟩ |
    ⟨f, ts₁, inner, rfl, hf, -, rfl, h₁⟩ | ⟨a, rfl, ha⟩
  · obtain ⟨used, c, rfl, hinner, hc⟩ := derives_enclosed h₁
    exact ⟨o :: (used ++ [c]), by simp, .brackets ho hinner hc⟩
  · obtain ⟨used, c, rfl, hinner, hc⟩ := derives_enclosed h₁
    exact ⟨o :: (used ++ [c]), by simp, .parentheses ho hinner hc⟩
  · exact ⟨[f, c], rfl, .emptyFunction hf hc⟩
  · obtain ⟨used, c, rfl, hinner, hc⟩ := derives_enclosed h₁
    exact ⟨f :: (used ++ [c]), by simp, .function hf hinner hc⟩
  · exact ⟨[a], rfl, .leaf ha⟩
termination_by 10 * ts.length

end

theorem Joins.exists_cons {c : Connective} {ts joinedTs : List Token} {t : Token}
    {more : List (List Token)} (h : Joins c ((t :: ts) :: more) joinedTs) :
    ∃ us, joinedTs = t :: us := by
  cases h with
  | last => exact ⟨ts, rfl⟩
  | marked => exact ⟨_, rfl⟩
  | adjacent => exact ⟨_, rfl⟩

theorem startsTerm_of_leaf {tok : Token} {x : Except Fault Tree} (h : ofLeaf? tok = some x) :
    tok.kind.startsTerm := by
  unfold ofLeaf? at h
  split at h <;> simp_all [Token.Kind.startsTerm]

theorem Derives.exists_cons {phrase : Phrase} {ts : List Token} {t : Tree}
    (h : Derives phrase ts t) : ∃ x us, ts = x :: us ∧ x.kind.startsTerm := by
  induction h with
  | leaf h => exact ⟨_, [], rfl, startsTerm_of_leaf h⟩
  | brackets ho => exact ⟨_, _, rfl, by simp [ho, Token.Kind.startsTerm]⟩
  | parentheses ho => exact ⟨_, _, rfl, by simp [ho, Token.Kind.startsTerm]⟩
  | emptyFunction hf => exact ⟨_, _, rfl, by simp [hf, Token.Kind.startsTerm]⟩
  | function hf => exact ⟨_, _, rfl, by simp [hf, Token.Kind.startsTerm]⟩
  | once _ ih => exact ih
  | multiplied _ _ _ ih =>
    obtain ⟨x, us, rfl, hx⟩ := ih
    exact ⟨x, _, rfl, hx⟩
  | single _ ih => exact ih
  | @joined c parts ts hlen _ hts ih =>
    match parts with
    | [] => simp at hlen
    | p :: parts =>
      obtain ⟨x, us, hp, hx⟩ := ih p (List.mem_cons_self ..)
      rw [List.map_cons, hp] at hts
      obtain ⟨us', rfl⟩ := hts.exists_cons
      exact ⟨x, us', rfl, hx⟩

/-- No operand of the connective goes on with these tokens. -/
def EndsOperand (c : Connective) (rest : List Token) : Prop :=
  (∀ t ∈ rest.head?, t.kind.isMultiplier = false) ∧
    ∀ d : Connective, d.looseness < c.looseness → d.next? rest = none

/-- Nothing that the connective joins goes on with these tokens. -/
def Ends (c : Connective) (rest : List Token) : Prop :=
  EndsOperand c rest ∧ c.next? rest = none

theorem EndsOperand.of_mark {c : Connective} {mark : Token} {rest : List Token}
    (h : c.kind? = some mark.kind) : EndsOperand c (mark :: rest) := by
  constructor
  · intro t ht
    cases ht
    cases c <;> simp_all [Connective.kind?] <;> simp [← h, Token.Kind.isMultiplier]
  · intro d hd
    cases c <;> cases d <;>
      simp_all [Connective.kind?, Connective.looseness, Connective.next?] <;>
      simp [← h, Token.Kind.startsTerm]

theorem EndsOperand.of_term {t : Token} {rest : List Token}
    (h : t.kind.startsTerm) : EndsOperand .juxtaposition (t :: rest) := by
  constructor
  · intro x hx
    cases hx
    cases hk : t.kind <;> simp_all [Token.Kind.startsTerm, Token.Kind.isMultiplier]
  · intro d hd
    simp [Connective.looseness] at hd

theorem Ends.of_nil (c : Connective) : Ends c [] :=
  ⟨⟨by simp, fun _ _ => rfl⟩, rfl⟩

theorem Ends.of_closing {c : Connective} {t : Token} {rest : List Token}
    (h : t.kind = .closeBracket ∨ t.kind = .closeParen) : Ends c (t :: rest) := by
  have hnext : ∀ d : Connective, d.next? (t :: rest) = none := by
    intro d
    rcases h with h | h <;> cases d <;>
      simp [Connective.next?, Connective.kind?, h, Token.Kind.startsTerm]
  refine ⟨⟨?_, fun d _ => hnext d⟩, hnext c⟩
  intro x hx
  cases hx
  rcases h with h | h <;> simp [h, Token.Kind.isMultiplier]

/-- What the parser does with the tokens of a phrase, whatever follows. -/
def Phrase.Accepts (last : Token) : Phrase → List Token → Tree → Prop
  | term, ts, t => ∀ rest, Reads (Tree.term last (ts ++ rest)) t rest
  | repeated, ts, t => ∀ rest, (EndsInHash ts → startsWith .openCurly rest = false) →
    ∀ t' rest', Reads (multipliedBy last t rest) t' rest' →
      Reads (operand last .juxtaposition (ts ++ rest)) t' rest'
  | level c, ts, t => ∀ rest, Ends c rest → Reads (Tree.level last c (ts ++ rest)) t rest

theorem reads_operand_of_accepts {last : Token} {c : Connective} {ts rest : List Token} {t : Tree}
    (h : (Phrase.operandOf c).Accepts last ts t) (hrest : EndsOperand c rest) :
    Reads (operand last c (ts ++ rest)) t rest := by
  have tighter : ∀ d : Connective, d.looseness < c.looseness → Ends d rest := fun d hd =>
    ⟨⟨hrest.1, fun e he => hrest.2 e (Nat.lt_trans he hd)⟩, hrest.2 d hd⟩
  match c with
  | .oneOf =>
    rw [operand]
    exact h rest (tighter _ (by decide))
  | .anyOrder =>
    rw [operand]
    exact h rest (tighter _ (by decide))
  | .allRequired =>
    rw [operand]
    exact h rest (tighter _ (by decide))
  | .juxtaposition =>
    refine h rest (fun _ => ?_) t rest ?_
    · match rest with
      | [] => rfl
      | x :: rest =>
        have hx := hrest.1 x rfl
        simp only [startsWith_cons, decide_eq_false_iff_not]
        intro hk
        simp [hk, Token.Kind.isMultiplier] at hx
    · rw [reads_multipliedBy]
      exact Or.inl ⟨multiplier?_eq_none.mpr hrest.1, rfl, rfl⟩

theorem reads_joined {last : Token} {c : Connective} {p : List Token × Tree}
    {parts : List (List Token × Tree)} {ts rest : List Token}
    (hderives : ∀ q ∈ p :: parts, Derives (.operandOf c) q.1 q.2)
    (haccepts : ∀ q ∈ p :: parts, (Phrase.operandOf c).Accepts last q.1 q.2)
    (hts : Joins c ((p :: parts).map Prod.fst) ts) (hrest : Ends c rest) :
    ∃ ts₁, Reads (operand last c (ts ++ rest)) p.2 ts₁ ∧
      Reads (others last c ts₁) (parts.map Prod.snd) rest := by
  induction parts generalizing p ts with
  | nil =>
    rw [Joins.of_singleton hts]
    refine ⟨rest, reads_operand_of_accepts (haccepts p (List.mem_singleton_self p)) hrest.1, ?_⟩
    exact reads_others.mpr (Or.inl ⟨hrest.2, rfl, rfl⟩)
  | cons q parts ih =>
    have hp := haccepts p (List.mem_cons_self ..)
    cases hts with
    | @marked kind mark _ joinedTs _ hk hm hts =>
      obtain ⟨ts₁, hq, hmore⟩ := ih (fun r hr => hderives r (List.mem_cons_of_mem _ hr))
        (fun r hr => haccepts r (List.mem_cons_of_mem _ hr)) hts
      refine ⟨mark :: (joinedTs ++ rest), ?_, ?_⟩
      · rw [List.append_assoc]
        exact reads_operand_of_accepts hp (.of_mark (hm ▸ hk))
      · refine reads_others.mpr (Or.inr ⟨joinedTs ++ rest, q.2, ts₁, _, ?_, hq, hmore, rfl⟩)
        exact Connective.next?_eq_some.mpr (Or.inl ⟨kind, mark, hk, rfl, hm⟩)
    | @adjacent _ joinedTs _ hk hts =>
      obtain ⟨ts₁, hq, hmore⟩ := ih (fun r hr => hderives r (List.mem_cons_of_mem _ hr))
        (fun r hr => haccepts r (List.mem_cons_of_mem _ hr)) hts
      -- Without a mark between them, the next operand shows by its first token.
      obtain ⟨x, us, hx, hstart⟩ := (hderives q (by simp)).exists_cons
      rw [List.map_cons, hx] at hts
      obtain ⟨us', rfl⟩ := hts.exists_cons
      have hc : c = .juxtaposition := by cases c <;> simp_all [Connective.kind?]
      subst hc
      refine ⟨x :: us' ++ rest, ?_, ?_⟩
      · rw [List.append_assoc]
        exact reads_operand_of_accepts hp (.of_term hstart)
      · refine reads_others.mpr (Or.inr ⟨x :: us' ++ rest, q.2, ts₁, _, ?_, hq, hmore, rfl⟩)
        exact Connective.next?_eq_some.mpr (Or.inr ⟨rfl, rfl, x, rfl, hstart⟩)

theorem Derives.startsWith_closeParen {phrase : Phrase} {ts : List Token} {t : Tree}
    (h : Derives phrase ts t) (rest : List Token) : startsWith .closeParen (ts ++ rest) = false := by
  obtain ⟨x, us, rfl, hx⟩ := h.exists_cons
  rw [List.cons_append, startsWith_cons, decide_eq_false_iff_not]
  intro hk
  simp [hk, Token.Kind.startsTerm] at hx

theorem Phrase.accepts_multiplied {last : Token} {ts ms : List Token} {inner : Tree}
    {m : Multiplier} (h : Phrase.repeated.Accepts last ts inner) (hm : Multiplies inner ms m)
    (hash : EndsInHash ts → startsWith .openCurly ms = false) :
    Phrase.repeated.Accepts last (ts ++ ms) (multiplied inner m) := by
  intro rest hrest t' rest' hread
  obtain ⟨x, us, rfl, _⟩ := hm.exists_cons
  rw [List.append_assoc]
  refine h _ (fun h => ?_) t' rest' (reads_multipliedBy.mpr (Or.inr ⟨_, rest, ?_, hread⟩))
  · exact hash h
  · refine finds_multiplier.mpr ⟨x :: us, rfl, hm, fun h => hrest ?_⟩
    exact (endsInHash_append (by simp)).mpr h

theorem Derives.accepts {phrase : Phrase} {ts : List Token} {t : Tree} (last : Token)
    (h : Derives phrase ts t) : phrase.Accepts last ts t := by
  -- Multipliers pile up from the left, so a repeated term says what the parser does after it.
  induction h with
  | leaf h =>
    intro rest
    exact reads_term.mpr (Or.inr (Or.inr (Or.inr (Or.inr ⟨_, rfl, h⟩))))
  | brackets ho h hc ih =>
    intro rest
    rw [List.cons_append, List.append_assoc]
    refine reads_term.mpr (Or.inl ⟨_, _, _, rfl, ho, rfl, ?_⟩)
    exact reads_enclosed.mpr ⟨_, ih _ (.of_closing (Or.inl hc)), hc⟩
  | parentheses ho h hc ih =>
    intro rest
    rw [List.cons_append, List.append_assoc]
    refine reads_term.mpr (Or.inr (Or.inl ⟨_, _, _, rfl, ho, rfl, ?_⟩))
    exact reads_enclosed.mpr ⟨_, ih _ (.of_closing (Or.inr hc)), hc⟩
  | emptyFunction hf hc =>
    intro rest
    exact reads_term.mpr (Or.inr (Or.inr (Or.inl ⟨_, _, rfl, hf, hc, rfl⟩)))
  | function hf h hc ih =>
    intro rest
    rw [List.cons_append, List.append_assoc]
    refine reads_term.mpr (Or.inr (Or.inr (Or.inr (Or.inl
      ⟨_, _, _, rfl, hf, h.startsWith_closeParen _, rfl, ?_⟩))))
    exact reads_enclosed.mpr ⟨_, ih _ (.of_closing (Or.inr hc)), hc⟩
  | once h ih =>
    intro rest _ t' rest' hread
    exact reads_juxtaposed.mpr ⟨_, rest, ih rest, hread⟩
  | multiplied h hm hash ih => exact Phrase.accepts_multiplied ih hm hash
  | single h ih =>
    intro rest hrest
    refine reads_level.mpr ⟨_, rest, [], reads_operand_of_accepts ih hrest.1, ?_, rfl⟩
    exact reads_others.mpr (Or.inl ⟨hrest.2, rfl, rfl⟩)
  | @joined c parts ts hlen h hts ih =>
    intro rest hrest
    match parts with
    | p :: q :: parts =>
      obtain ⟨ts₁, hfirst, hmore⟩ := reads_joined h ih hts hrest
      exact reads_level.mpr ⟨p.2, ts₁, _, hfirst, hmore, rfl⟩

/-- The tokens before the only end mark. -/
theorem takeWhile_ne_endMark {body : List Token} {last : Token} (hend : last.kind = .endMark)
    (hbody : ∀ t ∈ body, t.kind ≠ .endMark) :
    (body ++ [last]).takeWhile (·.kind ≠ .endMark) = body := by
  rw [List.takeWhile_append_of_pos fun t ht => by simpa using hbody t ht]
  simp [hend]

/-- The parser accepts the whole phrases of the grammar, and gives the trees they derive. -/
theorem ofTokens_eq_ok_iff {tokens : List Token} {t : Tree} :
    ofTokens tokens = .ok t ↔
      Derives (.level .oneOf) (tokens.takeWhile (·.kind ≠ .endMark)) t := by
  unfold ofTokens
  generalize (tokens.find? (·.kind = .endMark)).getD (Token.endAt 0) = last
  generalize tokens.takeWhile (·.kind ≠ .endMark) = ts
  constructor
  · intro h
    dsimp only at h
    split at h
    · cases h
    · split at h
      · cases h
      · next hlt hread =>
        cases h
        obtain ⟨used, hused, ht⟩ := derives_level ⟨hlt, hread⟩
        rw [hused]
        simpa using ht
      · cases h
  · intro h
    obtain ⟨x, us, hts, _⟩ := h.exists_cons
    have hread := h.accepts last [] (.of_nil _)
    rw [List.append_nil] at hread
    obtain ⟨hlt, hread⟩ := hread
    simp [hread, show ts ≠ [] by simp [hts]]

theorem ofText_eq_ok_iff {text : String} {t : Tree} :
    ofText text = .ok t ↔ ∃ tokens, Token.scan text = .ok tokens ∧
      Derives (.level .oneOf) (tokens.takeWhile (·.kind ≠ .endMark)) t := by
  unfold ofText
  cases hscan : Token.scan text with
  | error fault => simp
  | ok tokens => simp [ofTokens_eq_ok_iff]

end Tree

theorem Source.tree_eq_ok_iff {source : Source} {t : Tree} :
    source.tree = .ok t ↔ Tree.ofText source.text = .ok t := by
  unfold Source.tree
  cases Tree.ofText source.text <;> simp [Source.located]

theorem Source.tree_eq_error_iff {source : Source} {f : Failure} :
    source.tree = .error f ↔ f.source = source ∧ Tree.ofText source.text = .error f.toFault := by
  obtain ⟨fault, origin⟩ := f
  unfold Source.tree
  cases Tree.ofText source.text with
  | ok t => simp [Source.located]
  | error fault' => simp [Source.located, and_comm, eq_comm]

end ValueSyntax
