import ValueSyntax.Proofs.Token.Lexing
import ValueSyntax.Token.Scan

namespace ValueSyntax.Token

open Text

/-- What canonical texts are put together from. -/
inductive Piece where
  | blank
  | token (kind : Kind) (value : List Char)

def Piece.chars : Piece → List Char
  | blank => [' ']
  | token kind value => lexeme kind value

def textOf (ps : List Piece) : List Char := ps.flatMap Piece.chars

/-- The tokens among pieces. -/
def keysOf : List Piece → List (Kind × List Char)
  | [] => []
  | .blank :: ps => keysOf ps
  | .token kind value :: ps => (kind, value) :: keysOf ps

/-- A token without its place. -/
def key (t : Token) : Kind × List Char := (t.kind, t.value.toList)

@[simp] theorem textOf_nil : textOf [] = [] := rfl

@[simp] theorem textOf_cons (p : Piece) (ps : List Piece) :
    textOf (p :: ps) = p.chars ++ textOf ps :=
  List.flatMap_cons ..

@[simp] theorem textOf_append (ps qs : List Piece) : textOf (ps ++ qs) = textOf ps ++ textOf qs :=
  List.flatMap_append ..

@[simp] theorem keysOf_nil : keysOf [] = [] := rfl

@[simp] theorem keysOf_blank (ps : List Piece) : keysOf (.blank :: ps) = keysOf ps := rfl

@[simp] theorem keysOf_token (kind : Kind) (value : List Char) (ps : List Piece) :
    keysOf (.token kind value :: ps) = (kind, value) :: keysOf ps := rfl

@[simp] theorem keysOf_append (ps qs : List Piece) :
    keysOf (ps ++ qs) = keysOf ps ++ keysOf qs := by
  induction ps with
  | nil => rfl
  | cons p ps ih => cases p <;> simp [ih]

/-- Every piece can be told from what follows it; `rest` is what follows the last one. -/
def Spaced : List Piece → List Char → Prop
  | [], _ => True
  | .blank :: ps, rest => Spaced ps rest
  | .token kind value :: ps, rest =>
    Formed kind value ∧ (kind.isOpen → Stops sticks (textOf ps ++ rest)) ∧ Spaced ps rest

@[simp] theorem spaced_nil (rest : List Char) : Spaced [] rest := trivial

@[simp] theorem spaced_blank {ps : List Piece} {rest : List Char} :
    Spaced (.blank :: ps) rest ↔ Spaced ps rest := Iff.rfl

@[simp] theorem spaced_token {kind : Kind} {value : List Char} {ps : List Piece}
    {rest : List Char} : Spaced (.token kind value :: ps) rest ↔
      Formed kind value ∧ (kind.isOpen → Stops sticks (textOf ps ++ rest)) ∧ Spaced ps rest :=
  Iff.rfl

theorem spaced_append {ps qs : List Piece} {rest : List Char} :
    Spaced (ps ++ qs) rest ↔ Spaced ps (textOf qs ++ rest) ∧ Spaced qs rest := by
  induction ps with
  | nil => simp
  | cons p ps ih => cases p <;> simp [ih, and_assoc]

theorem spaced_mark {kind : Kind} {value : List Char} {ps : List Piece} {rest : List Char}
    (hkind : (value, kind) ∈ marks) (hopen : kind.isOpen = false) (h : Spaced ps rest) :
    Spaced (.token kind value :: ps) rest :=
  ⟨.mark hkind, fun hk => absurd hk (by simp [hopen]), h⟩

theorem Formed.ne_endMark {kind : Kind} {value : List Char} (h : Formed kind value) :
    kind ≠ .endMark := by
  rintro rfl
  cases h with
  | mark h =>
    have : ∀ m ∈ marks, m.2 ≠ .endMark := by decide
    exact this _ h rfl

theorem Formed.exists_lexeme_cons {kind : Kind} {value : List Char} (h : Formed kind value) :
    ∃ c tail, lexeme kind value = c :: tail ∧ isBlank c = false := by
  cases h with
  | reference => exact ⟨'<', _, rfl, by decide⟩
  | string => exact ⟨'\'', _, rfl, by decide⟩
  | number h =>
    obtain ⟨c, tail, rfl, hc⟩ := h.exists_cons
    refine ⟨c, tail, rfl, isBlank_of_isWordChar ?_⟩
    rcases hc with rfl | hc
    · decide
    · simp [isWordChar, Char.isAlphanum, hc]
  | function h =>
    obtain ⟨c, tail, rfl, hc⟩ := h.exists_cons
    exact ⟨c, tail ++ ['('], rfl, isBlank_of_sticks (sticks_of_startsName hc)⟩
  | identifier h =>
    obtain ⟨c, tail, rfl, hc⟩ := h.exists_cons
    exact ⟨c, tail, rfl, isBlank_of_sticks (sticks_of_startsName hc)⟩
  | mark h =>
    have hmarks : ∀ m ∈ marks, m.1.head?.any (!isBlank ·) := by decide
    have hm := hmarks _ h
    rw [(mark_ne_nil _ h).2]
    obtain ⟨c, tail, rfl⟩ := List.exists_cons_of_ne_nil (mark_ne_nil _ h).1
    exact ⟨c, tail, rfl, by simpa using hm⟩

def scanAfter (offset : Nat) : Match → Except Fault (List Token)
  | (kind, value, rest) =>
    let stop := offset + byteLength (lexeme kind value)
    (scanFrom stop rest).map (⟨kind, String.ofList value, offset, stop⟩ :: ·)

theorem scanFrom_eq (offset : Nat) (cs : List Char) :
    scanFrom offset cs =
      match cs with
      | [] => .ok [endAt offset]
      | c :: more =>
        if isBlank c then scanFrom (offset + c.utf8Size) more
        else
          match next? (c :: more) with
          | none => .error ⟨.unrecognised (String.singleton c), offset⟩
          | some m => scanAfter offset m := by
  rw [scanFrom.eq_def]
  cases cs with
  | nil => rfl
  | cons c more =>
    by_cases hblank : isBlank c
    · simp only [hblank, if_true]
    · dsimp only
      rw [if_neg hblank, if_neg hblank]
      split
      · next hnone => rw [hnone]
      · next kind value rest hsome =>
        simp only [hsome, scanAfter]
        cases scanFrom (offset + byteLength (lexeme kind value)) rest with
        | error fault => rfl
        | ok tokens => rfl

theorem scanFrom_blank {c : Char} (offset : Nat) (cs : List Char) (h : isBlank c) :
    scanFrom offset (c :: cs) = scanFrom (offset + c.utf8Size) cs := by
  rw [scanFrom_eq]
  exact if_pos h

theorem scanFrom_cons {c : Char} (offset : Nat) (cs : List Char) (h : isBlank c = false) :
    scanFrom offset (c :: cs) =
      match next? (c :: cs) with
      | none => .error ⟨.unrecognised (String.singleton c), offset⟩
      | some m => scanAfter offset m := by
  rw [scanFrom_eq]
  exact if_neg (Bool.eq_false_iff.mp h)

theorem scanFrom_of_next? {kind : Kind} {value rest : List Char} (offset : Nat)
    (hnext : next? (lexeme kind value ++ rest) = some (kind, value, rest)) :
    scanFrom offset (lexeme kind value ++ rest) = scanAfter offset (kind, value, rest) := by
  obtain ⟨c, tail, hcs, hblank⟩ := (formed_of_next? hnext).exists_lexeme_cons
  rw [hcs, List.cons_append] at hnext ⊢
  rw [scanFrom_cons offset (tail ++ rest) hblank, hnext]

/-- The characters are scanned into tokens of these kinds and values. -/
inductive Scans : List Char → List (Kind × List Char) → Prop
  | done : Scans [] []
  | blank {c : Char} {cs : List Char} {keys : List (Kind × List Char)} (h : isBlank c)
      (hcs : Scans cs keys) : Scans (c :: cs) keys
  | token {kind : Kind} {value rest : List Char} {keys : List (Kind × List Char)}
      (h : next? (lexeme kind value ++ rest) = some (kind, value, rest)) (hrest : Scans rest keys) :
      Scans (lexeme kind value ++ rest) ((kind, value) :: keys)

namespace Scans

variable {cs : List Char} {keys : List (Kind × List Char)}

theorem formed {kind : Kind} {value : List Char} (h : Formed kind value)
    (hopen : kind.isOpen → Stops sticks cs) (hcs : Scans cs keys) :
    Scans (lexeme kind value ++ cs) ((kind, value) :: keys) :=
  .token (next?_of_formed h hopen) hcs

theorem ne_endMark (h : Scans cs keys) : ∀ token ∈ keys, token.1 ≠ .endMark := by
  induction h with
  | done => simp
  | blank _ _ ih => exact ih
  | token h _ ih => exact List.forall_mem_cons.mpr ⟨(formed_of_next? h).ne_endMark, ih⟩

theorem exists_scanFrom (h : Scans cs keys) (offset : Nat) :
    ∃ tokens stop, scanFrom offset cs = .ok (tokens ++ [endAt stop]) ∧ tokens.map key = keys := by
  induction h generalizing offset with
  | done => exact ⟨[], offset, scanFrom_eq offset [], rfl⟩
  | @blank c cs _ h _ ih =>
    rw [scanFrom_blank offset cs h]
    exact ih _
  | @token kind value rest _ h _ ih =>
    obtain ⟨tokens, stop, hscan, hkeys⟩ := ih (offset + byteLength (lexeme kind value))
    refine ⟨⟨kind, String.ofList value, offset, offset + byteLength (lexeme kind value)⟩ :: tokens,
      stop, ?_, ?_⟩
    · rw [scanFrom_of_next? offset h, scanAfter, hscan]
      rfl
    · rw [List.map_cons, hkeys, key, String.toList_ofList]

end Scans

/-- Well spaced pieces are scanned into their tokens. -/
theorem Spaced.scans {ps : List Piece} (h : Spaced ps []) : Scans (textOf ps) (keysOf ps) := by
  induction ps with
  | nil => exact .done
  | cons p ps ih =>
    cases p with
    | blank => exact .blank (by decide) (ih h)
    | token kind value =>
      obtain ⟨hformed, hstops, hspaced⟩ := h
      rw [List.append_nil] at hstops
      exact .formed hformed hstops (ih hspaced)

/-- Scanning goes from blank to blank and from token to token. -/
theorem scanFrom_induction {motive : Nat → List Char → Prop} (done : ∀ offset, motive offset [])
    (blank : ∀ offset c cs, isBlank c → motive (offset + c.utf8Size) cs → motive offset (c :: cs))
    (unread : ∀ offset c cs, isBlank c = false → next? (c :: cs) = none → motive offset (c :: cs))
    (token : ∀ offset c cs kind value rest, isBlank c = false →
      next? (c :: cs) = some (kind, value, rest) →
      motive (offset + byteLength (lexeme kind value)) rest → motive offset (c :: cs))
    (offset : Nat) (cs : List Char) : motive offset cs := by
  match cs with
  | [] => exact done offset
  | c :: cs =>
    cases hblank : isBlank c with
    | true => exact blank offset c cs hblank (scanFrom_induction done blank unread token _ cs)
    | false =>
      match hnext : next? (c :: cs) with
      | none => exact unread offset c cs hblank hnext
      | some (kind, value, rest) =>
        have hlt : rest.length < (c :: cs).length := length_rest_lt hnext
        exact token offset c cs kind value rest hblank hnext
          (scanFrom_induction done blank unread token _ rest)
termination_by cs.length
decreasing_by
  · exact hlt
  · exact Nat.lt_succ_self _

theorem formed_of_scanFrom {cs : List Char} {offset : Nat} {tokens : List Token}
    (h : scanFrom offset cs = .ok tokens) {t : Token} (ht : t ∈ tokens)
    (hend : t.kind ≠ .endMark) : Formed t.kind t.value.toList := by
  induction offset, cs using scanFrom_induction generalizing tokens with
  | done offset =>
    rw [scanFrom_eq] at h
    cases h
    rw [List.mem_singleton.mp ht] at hend
    exact absurd rfl hend
  | blank offset c cs hblank ih =>
    rw [scanFrom_blank offset cs hblank] at h
    exact ih h ht
  | unread offset c cs hblank hnext =>
    rw [scanFrom_cons offset cs hblank, hnext] at h
    cases h
  | token offset c cs kind value rest hblank hnext ih =>
    rw [scanFrom_cons offset cs hblank, hnext] at h
    simp only [scanAfter, Except.map] at h
    split at h
    · cases h
    · next hrest =>
      cases h
      rcases List.mem_cons.mp ht with rfl | ht
      · rw [String.toList_ofList]
        exact formed_of_next? hnext
      · exact ih hrest ht

end ValueSyntax.Token
