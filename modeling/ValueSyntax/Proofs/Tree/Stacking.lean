import Mathlib.Data.List.Chain
import Mathlib.Data.Option.Basic
import ValueSyntax.Proofs.Token.Joining
import ValueSyntax.Proofs.Tree.Ambiguity
import ValueSyntax.Proofs.Tree.Layout

namespace ValueSyntax

open Text
open Token (Scans key withoutEnd)

/-- A text that is one multiplier, maybe with blanks in it and around it. -/
structure MultiplierText where
  text : String
  tokens : List Token
  multiplier : Multiplier
  scanned : Token.scan text = .ok (tokens ++ [Token.endAt text.utf8ByteSize])
  /-- Some operand it can stand behind; `!` does not stand behind every one. -/
  multiplies : ∃ operand, Tree.Multiplies operand tokens multiplier

namespace MultiplierText

/-- No `#` takes the next multiplier for its own counts. -/
def Apart (ms : List MultiplierText) : Prop :=
  ms.IsChain fun m next => Tree.EndsInHash m.tokens → Tree.startsWith .openCurly next.tokens = false

def tokensOf (ms : List MultiplierText) : List Token := ms.flatMap tokens

/-- The definition in brackets, with the multipliers behind it. -/
def stacked (text : String) (ms : List MultiplierText) : String :=
  "[ " ++ text ++ " ]" ++ String.join (ms.map MultiplierText.text)

end MultiplierText

namespace Tree

/-- The tree under the multipliers, the last one outermost. -/
def stack (t : Tree) (ms : List Multiplier) : Tree := ms.foldl multiplied t

theorem stack_append (t : Tree) (ms : List Multiplier) (m : Multiplier) :
    t.stack (ms ++ [m]) = multiplied (t.stack ms) m := by
  simp [stack]

theorem Multiplies.of_bracketed {a b : Tree} {ts : List Token} {m : Multiplier}
    (h : Multiplies a ts m) (hb : b.isBracketedGroup) : Multiplies b ts m := by
  cases h with
  | star h => exact .star h
  | plus h => exact .plus h
  | question h => exact .question h
  | exclamation h _ => exact .exclamation h hb
  | hash h => exact .hash h
  | counts h => exact .counts h
  | hashCounts ht h => exact .hashCounts ht h

theorem Multiplies.isOpen_getLast? {operand : Tree} {ts : List Token} {m : Multiplier}
    (h : Multiplies operand ts m) : ∀ t ∈ ts.getLast?, t.kind.isOpen = false := by
  have hcounts : ∀ {ts min max}, Counts ts min max → ∀ t ∈ ts.getLast?, t.kind = .closeCurly := by
    intro ts min max h
    cases h <;> simp [*]
  cases h with
  | star h => simp [h, Token.Kind.isOpen]
  | plus h => simp [h, Token.Kind.isOpen]
  | question h => simp [h, Token.Kind.isOpen]
  | exclamation h _ => simp [h, Token.Kind.isOpen]
  | hash h => simp [h, Token.Kind.isOpen]
  | counts h =>
    intro t ht
    rw [hcounts h t ht]
    rfl
  | @hashCounts _ ts _ _ _ h =>
    intro t ht
    rw [List.getLast?_cons_of_ne_nil h.ne_nil] at ht
    rw [hcounts h t ht]
    rfl

theorem Finds.unique {α : Type} {P : α × List Token → Prop}
    {x : Except Fault (Option { r // P r })} {a b : α} {rest rest' : List Token}
    (h : Finds x a rest) (h' : Finds x b rest') : a = b ∧ rest = rest' := by
  obtain ⟨_, h⟩ := h
  obtain ⟨_, h'⟩ := h'
  cases h.symm.trans h'
  exact ⟨rfl, rfl⟩

/-- Which tokens are a multiplier, and which one it is, does not depend on the operands that it can
stand behind. -/
theorem Multiplies.unique {a b : Tree} {ts us rest rest' : List Token} {m n : Multiplier}
    (h : Multiplies a ts m) (h' : Multiplies b us n) (heq : ts ++ rest = us ++ rest')
    (hash : EndsInHash ts → startsWith .openCurly rest = false)
    (hash' : EndsInHash us → startsWith .openCurly rest' = false) : m = n ∧ rest = rest' := by
  -- Behind a bracketed group there can be any multiplier, so the parser tells them apart there.
  have hgroup : (group noArguments true).isBracketedGroup := rfl
  have hfinds : Finds (multiplier? (Token.endAt 0) (group noArguments true) (ts ++ rest)) m rest :=
    finds_multiplier.mpr ⟨ts, rfl, h.of_bracketed hgroup, hash⟩
  exact hfinds.unique (finds_multiplier.mpr ⟨us, heq, h'.of_bracketed hgroup, hash'⟩)

variable {last : Token} {ts rest : List Token} {inner t u : Tree} {ms : List MultiplierText}

theorem startsWith_openCurly_tokensOf {m : MultiplierText} (h : MultiplierText.Apart (m :: ms)) :
    EndsInHash m.tokens → startsWith .openCurly (MultiplierText.tokensOf ms) = false := by
  intro hash
  match ms with
  | [] => rfl
  | next :: ms =>
    have hnext := (List.isChain_cons_cons.mp h).1 hash
    obtain ⟨operand, hm⟩ := next.multiplies
    obtain ⟨x, us, hx, -⟩ := hm.exists_cons
    rw [MultiplierText.tokensOf, List.flatMap_cons, hx, List.cons_append]
    rwa [hx] at hnext

/-- Behind a term all of the multipliers are read, one after another. -/
theorem reads_stack (hapart : MultiplierText.Apart ms)
    (h : Reads (multipliedBy last inner (MultiplierText.tokensOf ms)) t rest) :
    t = inner.stack (ms.map (·.multiplier)) ∧ rest = [] := by
  induction ms generalizing inner with
  | nil =>
    rcases reads_multipliedBy.mp h with ⟨-, rfl, hrest⟩ | ⟨m, ts₁, hfinds, -⟩
    · exact ⟨rfl, hrest.symm⟩
    · exact absurd hfinds.length_lt (Nat.not_lt_zero _)
  | cons m ms ih =>
    obtain ⟨operand, hm⟩ := m.multiplies
    rw [MultiplierText.tokensOf, List.flatMap_cons] at h
    rcases reads_multipliedBy.mp h with ⟨hnone, -⟩ | ⟨n, ts₁, hfinds, hmore⟩
    · -- The parser does not stop before a token that can only be a multiplier's.
      obtain ⟨x, us, hx, hkind⟩ := hm.exists_cons
      rw [hx] at hnone
      rw [multiplier?_eq_none.mp hnone x rfl] at hkind
      cases hkind
    · obtain ⟨used, heq, hn, hash⟩ := finds_multiplier.mp hfinds
      obtain ⟨rfl, rfl⟩ := hm.unique hn heq (startsWith_openCurly_tokensOf hapart) hash
      exact ih hapart.tail hmore

theorem reads_whole {c : Connective}
    (hoperand : ∀ first ts₁, Reads (operand last c ts) first ts₁ → first = u ∧ ts₁ = [])
    (h : Reads (level last c ts) t rest) : t = u ∧ rest = [] := by
  obtain ⟨first, ts₁, more, hfirst, hmore, rfl⟩ := reads_level.mp h
  obtain ⟨rfl, rfl⟩ := hoperand first ts₁ hfirst
  rcases reads_others.mp hmore with ⟨-, rfl, rfl⟩ | ⟨_, _, _, _, ⟨_, hnext⟩, _⟩
  · exact ⟨rfl, rfl⟩
  · cases hnext

/-- A term with multipliers that use the tokens up is a whole definition. -/
theorem reads_whole_term {ts₁ : List Token} (hterm : Reads (term last ts) inner ts₁)
    (hstack : ∀ t rest, Reads (multipliedBy last inner ts₁) t rest → t = u ∧ rest = [])
    (h : Reads (level last .oneOf ts) t rest) : t = u := by
  have hrepeated : ∀ t rest, Reads (operand last .juxtaposition ts) t rest → t = u ∧ rest = [] := by
    intro t rest h
    obtain ⟨inner', ts₁', hterm', hmore⟩ := reads_juxtaposed.mp h
    obtain ⟨_, hx⟩ := hterm
    obtain ⟨_, hx'⟩ := hterm'
    cases hx.symm.trans hx'
    exact hstack t rest hmore
  have hall : ∀ t rest, Reads (operand last .allRequired ts) t rest → t = u ∧ rest = [] := by
    intro t rest h
    rw [operand] at h
    exact reads_whole hrepeated h
  have hany : ∀ t rest, Reads (operand last .anyOrder ts) t rest → t = u ∧ rest = [] := by
    intro t rest h
    rw [operand] at h
    exact reads_whole hall h
  have hone : ∀ t rest, Reads (operand last .oneOf ts) t rest → t = u ∧ rest = [] := by
    intro t rest h
    rw [operand] at h
    exact reads_whole hany h
  exact (reads_whole hone h).1

theorem ofText_eq_ok_iff_derives {text : String} (h : Scans text.toList (ts.map key)) :
    ofText text = .ok t ↔ Derives (.level .oneOf) ts t := by
  obtain ⟨tokens, stop, hscan, hkeys⟩ := h.exists_scanFrom 0
  have houtcome : (ofTokens (tokens ++ [Token.endAt stop])).mapError Fault.cause =
      (ofTokens (ts ++ [Token.endAt stop])).mapError Fault.cause :=
    ofTokens_moved (Token.moved_of_keys (by rw [List.map_append, hkeys, List.map_append]))
  have hok : ∀ x : Except Fault Tree, x.mapError Fault.cause = .ok t ↔ x = .ok t := by
    intro x
    cases x <;> simp [Except.mapError]
  have hbody : ∀ t ∈ ts, t.kind ≠ .endMark := fun t ht =>
    h.ne_endMark (key t) (List.mem_map_of_mem ht)
  have htext : ofText text = ofTokens (tokens ++ [Token.endAt stop]) := by
    rw [ofText, show Token.scan text = .ok (tokens ++ [Token.endAt stop]) from hscan]
  rw [htext, ← hok, houtcome, hok, ofTokens_eq_ok_iff, takeWhile_ne_endMark rfl hbody]

end Tree

namespace MultiplierText

theorem scans_join (ms : List MultiplierText) :
    Scans (String.join (ms.map text)).toList ((tokensOf ms).map key) := by
  induction ms with
  | nil => exact .done
  | cons m ms ih =>
    obtain ⟨operand, hm⟩ := m.multiplies
    have hjoin : (String.join ((m :: ms).map text)).toList =
        m.text.toList ++ (String.join (ms.map text)).toList := by simp
    rw [hjoin, tokensOf, List.flatMap_cons, List.map_append]
    refine (Scans.of_scan m.scanned).append ih fun token htoken hopen => ?_
    rw [List.getLast?_map, Option.mem_map] at htoken
    obtain ⟨t, ht, rfl⟩ := htoken
    rw [key, hm.isOpen_getLast? t ht] at hopen
    cases hopen

theorem scans_stacked {text : String} {keys : List (Token.Kind × List Char)}
    (h : Scans text.toList keys) (ms : List MultiplierText) :
    Scans (stacked text ms).toList ((.openBracket, ['[']) ::
      (keys ++ (.closeBracket, [']']) :: (tokensOf ms).map key)) := by
  have hopen : Token.Formed .openBracket ['['] := .mark (by decide)
  have hclose : Token.Formed .closeBracket [']'] := .mark (by decide)
  have hchars : (stacked text ms).toList = '[' :: ' ' :: (text.toList ++
      ' ' :: ']' :: (String.join (ms.map MultiplierText.text)).toList) := by
    simp [stacked]
  rw [hchars]
  refine .formed hopen (by rintro ⟨⟩) (.blank (by decide) (h.append ?_ fun _ _ _ => ?_))
  · exact .blank (by decide) (.formed hclose (by rintro ⟨⟩) (scans_join ms))
  · exact stops_cons.mpr (by decide)

end MultiplierText

open MultiplierText

theorem Tree.ofText_stacked {text : String} {u t : Tree} {ms : List MultiplierText}
    (hu : ofText text = .ok u) (hapart : Apart ms) (ht : ofText (stacked text ms) = .ok t) :
    t = (group u true).stack (ms.map multiplier) := by
  obtain ⟨tokens, hscan, -⟩ := ofText_eq_ok_iff.mp hu
  have hkeys : Scans text.toList ((withoutEnd tokens).map key) := .of_scanFrom hscan
  have hinner := (ofText_eq_ok_iff_derives hkeys).mp hu
  let o : Token := ⟨.openBracket, "[", 0, 0⟩
  let c : Token := ⟨.closeBracket, "]", 0, 0⟩
  have hgroup : Derives .term (o :: (withoutEnd tokens ++ [c])) (group u true) :=
    .brackets rfl hinner rfl
  have hstacked : Scans (stacked text ms).toList
      (((o :: (withoutEnd tokens ++ [c])) ++ tokensOf ms).map key) := by
    have h := scans_stacked hkeys ms
    simpa [o, c, key] using h
  have hread := ((ofText_eq_ok_iff_derives hstacked).mp ht).accepts (Token.endAt 0) [] (.of_nil _)
  rw [List.append_nil] at hread
  exact reads_whole_term (hgroup.accepts _ _) (fun _ _ => reads_stack hapart) hread

end ValueSyntax
