import ValueSyntax.Proofs.Token.Locality
import ValueSyntax.Proofs.Token.Pieces

namespace ValueSyntax

theorem byteLength_toList (text : String) : byteLength text.toList = text.utf8ByteSize := by
  suffices h : ∀ cs : List Char, byteLength cs = (String.ofList cs).utf8ByteSize by
    rw [h, String.ofList_toList]
  intro cs
  induction cs with
  | nil => rfl
  | cons c cs ih => rw [byteLength, ih, String.ofList_cons, String.utf8ByteSize_append,
      String.utf8ByteSize_singleton]

theorem byteLength_pos {cs : List Char} (h : cs ≠ []) : 0 < byteLength cs := by
  obtain ⟨c, cs, rfl⟩ := List.exists_cons_of_ne_nil h
  exact Nat.add_pos_left (Char.utf8Size_pos c) _

namespace Token

open Text

/-- The tokens lie in the text one behind the other; the text starts at a byte offset. -/
inductive Tiles : Nat → List Char → List Token → Prop
  | done (offset : Nat) : Tiles offset [] [endAt offset]
  | blank {offset : Nat} {c : Char} {cs : List Char} {tokens : List Token} (h : isBlank c)
      (hcs : Tiles (offset + c.utf8Size) cs tokens) : Tiles offset (c :: cs) tokens
  | token {t : Token} {rest : List Char} {tokens : List Token} (hkind : t.kind ≠ .endMark)
      (hne : lexeme t.kind t.value.toList ≠ [])
      (hstop : t.stop = t.start + byteLength (lexeme t.kind t.value.toList))
      (hrest : Tiles t.stop rest tokens) :
      Tiles t.start (lexeme t.kind t.value.toList ++ rest) (t :: tokens)

/-- A text with a character that no token starts with: the fault is at the first of them, and what
stands before it is a text of its own. -/
def StopsShort (offset : Nat) (cs : List Char) (fault : Fault) : Prop :=
  ∃ before c after, cs = before ++ c :: after ∧ (isBlank c = false ∧ next? (c :: after) = none) ∧
    fault = ⟨.unrecognised (String.singleton c), offset + byteLength before⟩ ∧
    ∃ tokens, scanFrom offset before = .ok tokens

namespace StopsShort

variable {offset : Nat} {cs : List Char} {fault : Fault}

theorem blank {c : Char} (hc : isBlank c) (h : StopsShort (offset + c.utf8Size) cs fault) :
    StopsShort offset (c :: cs) fault := by
  obtain ⟨before, d, after, rfl, hd, rfl, tokens, hbefore⟩ := h
  refine ⟨c :: before, d, after, rfl, hd, ?_, tokens, ?_⟩
  · rw [byteLength, Nat.add_assoc]
  · rw [scanFrom_blank offset before hc, hbefore]

theorem token {kind : Kind} {value rest : List Char} (hnext : next? cs = some (kind, value, rest))
    (h : StopsShort (offset + byteLength (lexeme kind value)) rest fault) :
    StopsShort offset cs fault := by
  obtain ⟨before, d, after, rfl, hd, rfl, tokens, hbefore⟩ := h
  have hcs := (cuts_of_next? hnext).2
  rw [← List.append_assoc] at hcs
  refine ⟨lexeme kind value ++ before, d, after, hcs.symm, hd, ?_, ?_⟩
  · rw [byteLength_append, Nat.add_assoc]
  · -- What stands before the fault begins with the same token.
    rw [← hcs] at hnext
    refine ⟨⟨kind, String.ofList value, offset, offset + byteLength (lexeme kind value)⟩ ::
      tokens, ?_⟩
    rw [scanFrom_of_next? offset (next?_of_append hnext)]
    simp only [scanAfter, hbefore, Except.map]

end StopsShort

theorem tiles_of_next? {offset : Nat} {cs : List Char} {kind : Kind} {value rest : List Char}
    {tokens : List Token} (hnext : next? cs = some (kind, value, rest))
    (h : Tiles (offset + byteLength (lexeme kind value)) rest tokens) :
    Tiles offset cs
      (⟨kind, String.ofList value, offset, offset + byteLength (lexeme kind value)⟩ :: tokens) := by
  obtain ⟨hne, hcs⟩ := cuts_of_next? hnext
  have htiles := @Tiles.token ⟨kind, String.ofList value, offset,
    offset + byteLength (lexeme kind value)⟩ rest tokens
  rw [String.toList_ofList] at htiles
  rw [← hcs]
  exact htiles (formed_of_next? hnext).ne_endMark hne rfl h

theorem scanFrom_spec (offset : Nat) (cs : List Char) :
    match scanFrom offset cs with
    | .ok tokens => Tiles offset cs tokens
    | .error fault => StopsShort offset cs fault := by
  induction offset, cs using scanFrom_induction with
  | done offset =>
    rw [scanFrom_eq]
    exact .done offset
  | blank offset c cs hblank ih =>
    rw [scanFrom_blank offset cs hblank]
    split at ih
    · exact .blank hblank ih
    · exact .blank hblank ih
  | unread offset c cs hblank hnext =>
    rw [scanFrom_cons offset cs hblank, hnext]
    exact ⟨[], c, cs, rfl, ⟨hblank, hnext⟩, rfl, [endAt offset], scanFrom_eq offset []⟩
  | token offset c cs kind value rest hblank hnext ih =>
    rw [scanFrom_cons offset cs hblank, hnext]
    dsimp only [scanAfter]
    split at ih
    · next hrest =>
      rw [hrest]
      exact tiles_of_next? hnext ih
    · next hrest =>
      rw [hrest]
      exact .token hnext ih

namespace Tiles

variable {offset : Nat} {cs : List Char} {tokens : List Token}

theorem closed (h : Tiles offset cs tokens) :
    ∃ body, tokens = body ++ [endAt (offset + byteLength cs)] ∧
      ∀ t ∈ body, t.kind ≠ .endMark ∧ t.start < t.stop := by
  induction h with
  | done offset => exact ⟨[], rfl, nofun⟩
  | blank _ _ ih =>
    obtain ⟨body, rfl, hbody⟩ := ih
    exact ⟨body, by rw [byteLength, Nat.add_assoc], hbody⟩
  | @token t rest tokens hkind hne hstop _ ih =>
    obtain ⟨body, rfl, hbody⟩ := ih
    have hpos := byteLength_pos hne
    refine ⟨t :: body, ?_, List.forall_mem_cons.mpr ⟨⟨hkind, by omega⟩, hbody⟩⟩
    rw [byteLength_append, hstop, Nat.add_assoc, List.cons_append]

theorem le_start (h : Tiles offset cs tokens) :
    ∀ t ∈ tokens, offset ≤ t.start ∧ t.start ≤ t.stop := by
  induction h with
  | done offset => simp [endAt]
  | blank _ _ ih =>
    intro t ht
    have := ih t ht
    omega
  | token _ _ hstop _ ih =>
    refine List.forall_mem_cons.mpr ⟨by omega, fun t ht => ?_⟩
    have := ih t ht
    omega

theorem ordered (h : Tiles offset cs tokens) : tokens.Pairwise fun t u => t.stop ≤ u.start := by
  induction h with
  | done => exact List.pairwise_singleton _ _
  | blank _ _ ih => exact ih
  | token _ _ _ hrest ih =>
    exact List.pairwise_cons.mpr ⟨fun u hu => (hrest.le_start u hu).1, ih⟩

theorem covers (h : Tiles offset cs tokens) {t : Token} (ht : t ∈ tokens)
    (hkind : t.kind ≠ .endMark) :
    ∃ before after, cs = before ++ lexeme t.kind t.value.toList ++ after ∧
      t.start = offset + byteLength before ∧
      t.stop = t.start + byteLength (lexeme t.kind t.value.toList) := by
  induction h with
  | done offset => exact absurd (by rw [List.mem_singleton.mp ht]; rfl) hkind
  | @blank _ c _ _ _ _ ih =>
    obtain ⟨before, after, rfl, hstart, hstop⟩ := ih ht
    exact ⟨c :: before, after, rfl, by rw [hstart, byteLength, Nat.add_assoc], hstop⟩
  | @token u rest _ _ _ hstop _ ih =>
    rcases List.mem_cons.mp ht with rfl | ht
    · exact ⟨[], rest, rfl, rfl, hstop⟩
    · obtain ⟨before, after, rfl, hstart, hstop'⟩ := ih ht
      refine ⟨lexeme u.kind u.value.toList ++ before, after, by simp, ?_, hstop'⟩
      rw [hstart, hstop, byteLength_append, Nat.add_assoc]

theorem covered (h : Tiles offset cs tokens) {before after : List Char} {c : Char}
    (hcs : cs = before ++ c :: after) :
    isBlank c ∨ ∃ t ∈ tokens, t.start ≤ offset + byteLength before ∧
      offset + byteLength before + c.utf8Size ≤ t.stop := by
  induction h generalizing before with
  | done => simp at hcs
  | @blank _ d _ _ hd _ ih =>
    cases before with
    | nil =>
      cases hcs
      exact Or.inl hd
    | cons b before =>
      cases hcs
      rw [byteLength, ← Nat.add_assoc]
      exact ih rfl
  | @token t rest tokens _ _ hstop _ ih =>
    have behind : ∀ middle, rest = middle ++ c :: after →
        isBlank c ∨ ∃ u ∈ t :: tokens, u.start ≤ t.stop + byteLength middle ∧
          t.stop + byteLength middle + c.utf8Size ≤ u.stop := by
      intro middle hrest
      refine (ih hrest).imp_right ?_
      rintro ⟨u, hu, h⟩
      exact ⟨u, List.mem_cons_of_mem _ hu, h⟩
    rcases List.append_eq_append_iff.mp hcs with ⟨middle, rfl, hrest⟩ | ⟨middle, hlexeme, hafter⟩
    · rw [byteLength_append, ← Nat.add_assoc, ← hstop]
      exact behind middle hrest
    · cases middle with
      | nil =>
        rw [List.append_nil] at hlexeme
        rw [← hlexeme, ← hstop]
        exact behind [] hafter.symm
      | cons d middle =>
        cases hafter
        rw [hlexeme, byteLength_append, byteLength] at hstop
        exact Or.inr ⟨t, List.mem_cons_self .., by omega, by omega⟩

end Tiles

/-- The tokens of a text with their places: which characters each of them stands for, and that all
other characters are blanks. Places count bytes. -/
structure Tiling (text : String) (tokens : List Token) : Prop where
  /-- The end mark stands behind the last character, and there is no other. -/
  closed : ∃ body, tokens = body ++ [⟨.endMark, "EOF", text.utf8ByteSize, text.utf8ByteSize⟩] ∧
    ∀ t ∈ body, t.kind ≠ .endMark ∧ t.start < t.stop
  ordered : tokens.Pairwise fun t u => t.stop ≤ u.start
  /-- Cut off between two characters each, the span of a token is its lexeme. -/
  exact : ∀ t ∈ tokens, t.kind ≠ .endMark → ∃ before after,
    text.toList = before ++ lexeme t.kind t.value.toList ++ after ∧ t.start = byteLength before ∧
      t.stop = byteLength (before ++ lexeme t.kind t.value.toList)
  blank : ∀ before c after, text.toList = before ++ c :: after →
    (¬ ∃ t ∈ tokens, t.start ≤ byteLength before ∧ byteLength (before ++ [c]) ≤ t.stop) → isBlank c

theorem Tiles.tiling {text : String} {tokens : List Token} (h : Tiles 0 text.toList tokens) :
    Tiling text tokens where
  closed := by
    have hclosed := h.closed
    rwa [Nat.zero_add, byteLength_toList] at hclosed
  ordered := h.ordered
  exact t ht hkind := by
    obtain ⟨before, after, htext, hstart, hstop⟩ := h.covers ht hkind
    rw [Nat.zero_add] at hstart
    exact ⟨before, after, htext, hstart, by rw [byteLength_append, ← hstart, hstop]⟩
  blank before c after htext hno := by
    refine (h.covered htext).resolve_right fun ⟨t, ht, hstart, hstop⟩ => hno ⟨t, ht, ?_, ?_⟩
    · rwa [Nat.zero_add] at hstart
    · rw [Nat.zero_add] at hstop
      rwa [byteLength_append, byteLength, byteLength, Nat.add_zero]

theorem tiles_of_scan {text : String} {tokens : List Token} (h : scan text = .ok tokens) :
    Tiles 0 text.toList tokens := by
  have hspec := scanFrom_spec 0 text.toList
  rwa [show scanFrom 0 text.toList = .ok tokens from h] at hspec

theorem tiling_of_scan {text : String} {tokens : List Token} (h : scan text = .ok tokens) :
    Tiling text tokens :=
  (tiles_of_scan h).tiling

theorem stopsShort_of_scan {text : String} {fault : Fault} (h : scan text = .error fault) :
    StopsShort 0 text.toList fault := by
  have hspec := scanFrom_spec 0 text.toList
  rwa [show scanFrom 0 text.toList = .error fault from h] at hspec

/-- Scanning loses and invents nothing. A text is refused at a character that it quotes, and what
stands before this character can be scanned. -/
theorem scan_loses_nothing (text : String) :
    match scan text with
    | .ok tokens => Tiling text tokens
    | .error fault => ∃ before c after, text.toList = before ++ c :: after ∧
        fault = ⟨.unrecognised (String.singleton c), byteLength before⟩ ∧
        ∃ tokens, scan (String.ofList before) = .ok tokens := by
  split
  · next hscan => exact tiling_of_scan hscan
  · next hscan =>
    obtain ⟨before, c, after, htext, -, hfault, tokens, hbefore⟩ := stopsShort_of_scan hscan
    rw [Nat.zero_add] at hfault
    exact ⟨before, c, after, htext, hfault, tokens, by rwa [scan, String.toList_ofList]⟩

/-- The offset is that of the first character that starts no token: all that stands before it can
be scanned. -/
def StuckAt (text : String) (offset : Nat) : Prop :=
  ∃ before c after, text.toList = before ++ c :: after ∧ offset = byteLength before ∧
    isBlank c = false ∧ next? (c :: after) = none ∧
    ∃ tokens, scan (String.ofList before) = .ok tokens

theorem stuckAt_of_scan {text : String} {fault : Fault} (h : scan text = .error fault) :
    StuckAt text fault.offset := by
  obtain ⟨before, c, after, htext, ⟨hblank, hnext⟩, rfl, tokens, hbefore⟩ := stopsShort_of_scan h
  refine ⟨before, c, after, htext, Nat.zero_add _, hblank, hnext, tokens, ?_⟩
  rwa [scan, String.toList_ofList]

end Token

end ValueSyntax
