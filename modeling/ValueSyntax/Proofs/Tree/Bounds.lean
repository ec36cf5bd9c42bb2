import ValueSyntax.Proofs.Number.RoundTrip
import ValueSyntax.Tree.Range

namespace ValueSyntax

open Text

namespace Range

open Binary64

/-- The bounds are numbers of binary64, and they are in order. -/
structure Valid (r : Range) : Prop where
  min : ∀ x ∈ r.min, x.Canonical
  max : ∀ x ∈ r.max, x.Canonical
  ordered : r.reversed = false

theorem canonical_of_bound? {infinities : List (List Char)} {cs : List Char}
    {bound : Option Binary64} (h : bound? infinities cs = some bound) :
    ∀ x ∈ bound, x.Canonical := by
  unfold bound? at h
  split at h
  · cases h
    simp
  · split at h
    · cases h
    · obtain ⟨x, hx, rfl⟩ := Option.map_eq_some_iff.mp h
      intro y hy
      cases hy
      exact canonical_of_read? hx

theorem valid_of_ofBody? {body : List Char} {r : Range} (h : ofBody? body = some r) :
    r.Valid := by
  unfold ofBody? at h
  split at h
  · split at h
    · cases h
    · split at h
      · next min max hmin hmax =>
        split at h
        · cases h
        · next hordered =>
          cases h
          exact ⟨canonical_of_bound? hmin, canonical_of_bound? hmax, by simpa using hordered⟩
      · cases h
  · cases h

theorem valid_of_read? {cs : List Char} {r : Range} (h : read? cs = some r) : r.Valid := by
  unfold read? at h
  split at h
  · split at h
    · exact valid_of_ofBody? h
    · cases h
  · cases h

def minChars (r : Range) : List Char :=
  match r.min with
  | some min => min.chars
  | none => ['-', '∞']

def maxChars (r : Range) : List Char :=
  match r.max with
  | some max => max.chars
  | none => ['∞']

theorem chars_eq (r : Range) :
    r.chars = '[' :: (r.minChars ++ ',' :: r.maxChars) ++ [']'] := rfl

def isBoundChar (c : Char) : Bool := isWordChar c || c = '∞'

theorem isBlank_of_isBoundChar {c : Char} (h : isBoundChar c) : isBlank c = false := by
  simp only [isBoundChar, Bool.or_eq_true, decide_eq_true_eq] at h
  rcases h with h | rfl
  · exact isBlank_of_isWordChar h
  · decide

theorem isBoundChar_of_mem_minChars {r : Range} {c : Char} (h : c ∈ r.minChars) :
    isBoundChar c := by
  unfold minChars at h
  split at h
  · simp [isBoundChar, isWordChar_of_mem_chars h]
  · exact List.all_eq_true.mp (by decide : ['-', '∞'].all isBoundChar) c h

theorem isBoundChar_of_mem_maxChars {r : Range} {c : Char} (h : c ∈ r.maxChars) :
    isBoundChar c := by
  unfold maxChars at h
  split at h
  · simp [isBoundChar, isWordChar_of_mem_chars h]
  · exact List.all_eq_true.mp (by decide : ['∞'].all isBoundChar) c h

theorem bound?_chars {infinities : List (List Char)} {x : Binary64} (h : x.Canonical)
    (hinf : ∀ cs ∈ infinities, '∞' ∈ cs) : bound? infinities x.chars = some (some x) := by
  have hword : '∞' ∉ x.chars := fun hmem => absurd (isWordChar_of_mem_chars hmem) (by decide)
  rw [bound?, if_neg fun hmem => hword (hinf _ hmem),
    if_neg fun hlast => hword (List.mem_of_getLast? hlast), read?_chars h, Option.map_some]

theorem low?_minChars {r : Range} (h : r.Valid) : low? r.minChars = some r.min := by
  unfold low? minChars
  cases hmin : r.min with
  | none => rfl
  | some x => exact bound?_chars (h.min x hmin) (by simp)

theorem high?_maxChars {r : Range} (h : r.Valid) : high? r.maxChars = some r.max := by
  unfold high? maxChars
  cases hmax : r.max with
  | none => rfl
  | some x => exact bound?_chars (h.max x hmax) (by simp)

theorem trim_of_forall {cs : List Char} (h : ∀ c ∈ cs, isBoundChar c) : trim cs = cs :=
  trim_of_ends (fun c hc => isBlank_of_isBoundChar (h c (List.mem_of_mem_head? hc)))
    fun c hc => isBlank_of_isBoundChar (h c (List.mem_of_mem_getLast? hc))

theorem ofBody?_chars {r : Range} (h : r.Valid) :
    ofBody? (r.minChars ++ ',' :: r.maxChars) = some r := by
  have hmin : ',' ∉ r.minChars := fun hc => absurd (isBoundChar_of_mem_minChars hc) (by decide)
  have hmax : ',' ∉ r.maxChars := fun hc => absurd (isBoundChar_of_mem_maxChars hc) (by decide)
  have hstop : Stops (· ≠ ',') (',' :: r.maxChars) := stops_cons.mpr (by decide)
  have htake := takeWhile_run (all_ne_of_not_mem hmin) hstop
  have hdrop := dropWhile_run (all_ne_of_not_mem hmin) hstop
  have htrimMin : trim r.minChars = r.minChars :=
    trim_of_forall fun c hc => isBoundChar_of_mem_minChars hc
  have htrimMax : trim r.maxChars = r.maxChars :=
    trim_of_forall fun c hc => isBoundChar_of_mem_maxChars hc
  simp only [ofBody?, htake, hdrop, hmax, if_false, htrimMin, htrimMax, low?_minChars h,
    high?_maxChars h]
  rw [if_neg]
  simpa using h.ordered

theorem read?_chars {r : Range} (h : r.Valid) : read? r.chars = some r := by
  have htrim : trim r.chars = r.chars := by
    rw [chars_eq]
    apply trim_of_ends
    · intro c hc
      obtain rfl : '[' = c := by simpa using hc
      decide
    · intro c hc
      rw [List.getLast?_concat] at hc
      obtain rfl : ']' = c := Option.some.inj hc
      decide
  have hafter : after? ['['] r.chars = some (r.minChars ++ ',' :: r.maxChars ++ [']']) := by
    rw [chars_eq]
    rfl
  simp only [read?, htrim, hafter]
  rw [List.getLast?_concat, if_pos rfl, List.dropLast_concat, ofBody?_chars h]

end Range

end ValueSyntax
