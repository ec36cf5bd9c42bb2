import Mathlib.Data.List.TakeWhile
import ValueSyntax.Text.After
import ValueSyntax.Text.Blank

namespace ValueSyntax.Text

/-- The characters do not start with one of a class. -/
def Stops (p : Char → Bool) (cs : List Char) : Prop := ∀ c ∈ cs.head?, p c = false

theorem stops_nil (p : Char → Bool) : Stops p [] := by simp [Stops]

@[simp] theorem stops_cons {p : Char → Bool} {c : Char} {cs : List Char} :
    Stops p (c :: cs) ↔ p c = false := by simp [Stops]

theorem Stops.mono {p q : Char → Bool} {cs : List Char} (h : Stops p cs)
    (hqp : ∀ c, q c → p c) : Stops q cs := by
  intro c hc
  rw [Bool.eq_false_iff]
  intro hq
  exact Bool.eq_false_iff.mp (h c hc) (hqp c hq)

theorem takeWhile_of_stops {p : Char → Bool} {cs : List Char} (h : Stops p cs) :
    cs.takeWhile p = [] := by
  cases cs with
  | nil => rfl
  | cons c cs => exact List.takeWhile_cons_of_neg (by simp [stops_cons.mp h])

theorem dropWhile_of_stops {p : Char → Bool} {cs : List Char} (h : Stops p cs) :
    cs.dropWhile p = cs := by
  cases cs with
  | nil => rfl
  | cons c cs => exact List.dropWhile_cons_of_neg (by simp [stops_cons.mp h])

/-- Maximal munch: a run is taken whole, and nothing after it. -/
theorem takeWhile_run {p : Char → Bool} {run rest : List Char} (h : ∀ c ∈ run, p c)
    (hrest : Stops p rest) : (run ++ rest).takeWhile p = run := by
  rw [List.takeWhile_append_of_pos h, takeWhile_of_stops hrest, List.append_nil]

theorem dropWhile_run {p : Char → Bool} {run rest : List Char} (h : ∀ c ∈ run, p c)
    (hrest : Stops p rest) : (run ++ rest).dropWhile p = rest := by
  rw [List.dropWhile_append_of_pos h, dropWhile_of_stops hrest]

theorem run_append_inj {p : Char → Bool} {run run' rest rest' : List Char} (h : ∀ c ∈ run, p c)
    (h' : ∀ c ∈ run', p c) (hrest : Stops p rest) (hrest' : Stops p rest')
    (heq : run ++ rest = run' ++ rest') : run = run' ∧ rest = rest' := by
  have htake := congrArg (List.takeWhile p) heq
  rw [takeWhile_run h hrest, takeWhile_run h' hrest'] at htake
  subst htake
  exact ⟨rfl, List.append_cancel_left heq⟩

theorem exists_run (p : Char → Bool) (cs : List Char) :
    ∃ run rest, cs = run ++ rest ∧ (∀ c ∈ run, p c) ∧ Stops p rest := by
  refine ⟨cs.takeWhile p, cs.dropWhile p, List.takeWhile_append_dropWhile.symm,
    fun c hc => List.mem_takeWhile_imp hc, ?_⟩
  intro c hc
  have hnot := List.head?_dropWhile_not p cs
  rw [Option.mem_def.mp hc] at hnot
  simpa using hnot

theorem all_ne_of_not_mem {c : Char} {cs : List Char} (h : c ∉ cs) :
    ∀ d ∈ cs, decide (d ≠ c) := by
  intro d hd
  rw [decide_eq_true_eq]
  rintro rfl
  exact h hd

theorem after?_eq_none {c d : Char} {text cs : List Char} (h : d ≠ c) :
    after? (c :: text) (d :: cs) = none :=
  if_neg h

theorem Stops.after?_eq_none {p : Char → Bool} {c : Char} {text cs : List Char} (h : Stops p cs)
    (hc : p c) : after? (c :: text) cs = none := by
  cases cs with
  | nil => rfl
  | cons d cs =>
    apply Text.after?_eq_none
    rintro rfl
    exact Bool.eq_false_iff.mp (stops_cons.mp h) hc

/-- Nothing is trimmed off between two ends that are no blanks. -/
theorem trim_of_ends {cs : List Char} (hhead : Stops isBlank cs)
    (hlast : ∀ c ∈ cs.getLast?, isBlank c = false) : trim cs = cs := by
  have hreverse : Stops isBlank cs.reverse := by
    unfold Stops
    rwa [List.head?_reverse]
  rw [trim, dropWhile_of_stops hhead, dropWhile_of_stops hreverse, List.reverse_reverse]

end ValueSyntax.Text
