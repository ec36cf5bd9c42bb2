import ValueSyntax.Proofs.Token.Spans

namespace ValueSyntax.Token

open Text

def withoutEnd (tokens : List Token) : List Token := tokens.filter (·.kind ≠ .endMark)

/-- The blanks around a number of tokens: some between any two of them, and maybe some at the two
ends. -/
structure Layout (n : Nat) where
  before : List Char
  /-- What stands behind each of the tokens. -/
  behind : List (List Char)
  length : behind.length = n
  blank : ∀ run ∈ before :: behind, ∀ c ∈ run, isBlank c
  apart : ∀ run ∈ behind.dropLast, run ≠ []

/-- The lexemes with runs of characters behind them. -/
def spread (tokens : List Token) (runs : List (List Char)) : List Char :=
  (List.zipWith (fun t run => lexeme t.kind t.value.toList ++ run) tokens runs).flatten

def Layout.text {n : Nat} (layout : Layout n) (tokens : List Token) : String :=
  String.ofList (layout.before ++ spread tokens layout.behind)

theorem Scans.of_blanks {run cs : List Char} {keys : List (Kind × List Char)}
    (hrun : ∀ c ∈ run, isBlank c) (h : Scans cs keys) : Scans (run ++ cs) keys := by
  induction run with
  | nil => exact h
  | cons c run ih =>
    obtain ⟨hc, hrun⟩ := List.forall_mem_cons.mp hrun
    exact .blank hc (ih hrun)

theorem stops_of_blank {run rest : List Char} (h : ∀ c ∈ run, isBlank c)
    (hrest : run = [] → rest = []) : Stops sticks (run ++ rest) := by
  cases run with
  | nil =>
    rw [hrest rfl]
    exact stops_nil _
  | cons c run =>
    have hc : isBlank c := h c (List.mem_cons_self ..)
    rw [List.cons_append, stops_cons, Bool.eq_false_iff]
    intro hsticks
    rw [isBlank_of_sticks hsticks] at hc
    cases hc

theorem scans_spread {tokens : List Token} {runs : List (List Char)}
    (hlength : runs.length = tokens.length)
    (hformed : ∀ t ∈ tokens, Formed t.kind t.value.toList)
    (hblank : ∀ run ∈ runs, ∀ c ∈ run, isBlank c) (hapart : ∀ run ∈ runs.dropLast, run ≠ []) :
    Scans (spread tokens runs) (tokens.map key) := by
  induction tokens generalizing runs with
  | nil => exact .done
  | cons t tokens ih =>
    match runs with
    | run :: runs =>
      obtain ⟨hrun, hblank⟩ := List.forall_mem_cons.mp hblank
      obtain ⟨ht, hformed⟩ := List.forall_mem_cons.mp hformed
      have hapart' : ∀ r ∈ runs.dropLast, r ≠ [] := by
        intro r hr
        apply hapart r
        rw [List.dropLast_cons_of_ne_nil (List.ne_nil_of_mem (List.dropLast_subset _ hr))]
        exact List.mem_cons_of_mem _ hr
      -- Only behind the last token there may be no blank.
      have hstops : Stops sticks (run ++ spread tokens runs) := by
        apply stops_of_blank hrun
        intro hnil
        have hruns : runs = [] := by
          by_contra hne
          apply hapart run _ hnil
          rw [List.dropLast_cons_of_ne_nil hne]
          exact List.mem_cons_self ..
        rw [spread, hruns, List.zipWith_nil_right, List.flatten_nil]
      have hrest : Scans (spread tokens runs) (tokens.map key) :=
        ih (Nat.succ.inj hlength) hformed hblank hapart'
      rw [spread, List.zipWith_cons_cons, List.flatten_cons, List.append_assoc]
      exact .formed ht (fun _ => hstops) (hrest.of_blanks hrun)

theorem eq_withoutEnd_append {text : String} {tokens : List Token} (h : scan text = .ok tokens) :
    tokens = withoutEnd tokens ++ [endAt text.utf8ByteSize] := by
  obtain ⟨body, rfl, hbody⟩ := (tiling_of_scan h).closed
  have hkept : body.filter (·.kind ≠ .endMark) = body :=
    List.filter_eq_self.mpr fun t ht => by simpa using (hbody t ht).1
  have hbody : withoutEnd (body ++ [endAt text.utf8ByteSize]) = body := by
    rw [withoutEnd, List.filter_append, hkept]
    simp [endAt]
  exact congrArg (· ++ [endAt text.utf8ByteSize]) hbody.symm

theorem scan_layout {text : String} {tokens : List Token} (h : scan text = .ok tokens)
    (layout : Layout (withoutEnd tokens).length) :
    ∃ tokens', scan (layout.text (withoutEnd tokens)) = .ok tokens' ∧
      tokens'.map key = tokens.map key := by
  have hformed : ∀ t ∈ withoutEnd tokens, Formed t.kind t.value.toList := by
    intro t ht
    obtain ⟨hmem, hkind⟩ := List.mem_filter.mp ht
    exact formed_of_scanFrom h hmem (by simpa using hkind)
  have hspread : Scans (spread (withoutEnd tokens) layout.behind) ((withoutEnd tokens).map key) :=
    scans_spread layout.length hformed
      (fun run hrun => layout.blank run (List.mem_cons_of_mem _ hrun)) layout.apart
  have hlayout := hspread.of_blanks (layout.blank layout.before (List.mem_cons_self ..))
  obtain ⟨tokens', stop, hscan, hkeys⟩ := hlayout.exists_scanFrom 0
  refine ⟨tokens' ++ [endAt stop], ?_, ?_⟩
  · rw [scan, Layout.text, String.toList_ofList]
    exact hscan
  · rw [eq_withoutEnd_append h, List.map_append, hkeys, List.map_append]
    rfl

end ValueSyntax.Token
