import ValueSyntax.CommandLine.Folder
import ValueSyntax.Proofs.CommandLine.Exit

namespace ValueSyntax

namespace Folder

def Stays (component : String) : Prop := component = "" ∨ component = "."

/-- The components of a path lead to a name in the folder: none before it leaves the folder. -/
inductive LeadsTo : List String → String → Prop
  | file {name : String} (hstays : ¬ Stays name) (hup : name ≠ "..") : LeadsTo [name] name
  | stay {component name : String} {parts : List String} (h : Stays component)
      (hname : LeadsTo parts name) : LeadsTo (component :: parts) name

variable {f : Folder} {place : Place} {text component : String} {parts : List String}

theorem foldlM_step_file :
    parts.foldlM f.step (.file text) = .ok place ↔ parts = [] ∧ place = .file text := by
  cases parts with
  | nil => simp [pure, Except.pure, eq_comm]
  | cons c parts => simp [step, bind, Except.bind]

/-- Outside of the folder there are no files. -/
theorem foldlM_step_outside : parts.foldlM f.step .outside ≠ .ok (.file text) := by
  induction parts with
  | nil => exact nofun
  | cons c parts ih =>
    rw [List.foldlM_cons, step]
    split
    · exact ih
    · exact nofun

theorem step_here_of_stays (h : Stays component) : f.step .here component = .ok .here := if_pos h

theorem step_here_up : f.step .here ".." = .ok .outside := rfl

theorem step_here_of_name (hstays : ¬ Stays component) (hup : component ≠ "..") :
    f.step .here component =
      match f.texts.get? component with
      | some text => .ok (.file text)
      | none => .error .notFound :=
  (if_neg hstays).trans (if_neg hup)

theorem leadsTo_cons_of_stays {name : String} (h : Stays component) :
    LeadsTo (component :: parts) name ↔ LeadsTo parts name := by
  constructor
  · rintro (⟨hstays, -⟩ | ⟨-, hname⟩)
    · exact absurd h hstays
    · exact hname
  · exact .stay h

theorem leadsTo_cons_of_not_stays {name : String} (h : ¬ Stays component) :
    LeadsTo (component :: parts) name ↔
      parts = [] ∧ component = name ∧ name ≠ ".." := by
  constructor
  · rintro (⟨-, hup⟩ | ⟨hstays, -⟩)
    · exact ⟨rfl, rfl, hup⟩
    · exact absurd hstays h
  · rintro ⟨rfl, rfl, hup⟩
    exact .file h hup

theorem foldlM_step_here : parts.foldlM f.step .here = .ok (.file text) ↔
    ∃ name, LeadsTo parts name ∧ f.texts.get? name = some text := by
  induction parts with
  | nil => exact ⟨nofun, nofun⟩
  | cons c parts ih =>
    rw [List.foldlM_cons]
    by_cases hstays : Stays c
    · rw [step_here_of_stays hstays]
      simp only [leadsTo_cons_of_stays hstays]
      exact ih
    · simp only [leadsTo_cons_of_not_stays hstays]
      by_cases hup : c = ".."
      · subst hup
        rw [step_here_up]
        constructor
        · exact fun h => absurd h foldlM_step_outside
        · rintro ⟨_, ⟨-, rfl, hne⟩, -⟩
          exact absurd rfl hne
      · rw [step_here_of_name hstays hup]
        constructor
        · intro h
          split at h
          · next t ht =>
            obtain ⟨rfl, htext⟩ := foldlM_step_file.mp h
            cases htext
            exact ⟨c, ⟨rfl, rfl, hup⟩, ht⟩
          · cases h
        · rintro ⟨_, ⟨rfl, rfl, -⟩, ht⟩
          rw [ht]
          rfl

theorem bind_text_eq_ok_iff {x : Except ReadFailure Place} :
    x.bind Place.text = .ok text ↔ x = .ok (.file text) := by
  match x with
  | .error e => exact ⟨nofun, nofun⟩
  | .ok .here => exact ⟨nofun, nofun⟩
  | .ok .outside => exact ⟨nofun, nofun⟩
  | .ok (.file t) => simp [Except.bind, Place.text]

/-- A file is read by the relative paths that lead to its name, and nothing else is read. -/
theorem read_eq_ok_iff {path : String} : f.read path = .ok text ↔
    path.toList.head? ≠ some '/' ∧
      ∃ name, LeadsTo (components path) name ∧ f.texts.get? name = some text := by
  rw [← foldlM_step_here, read]
  by_cases hempty : path = ""
  · subst hempty
    refine ⟨nofun, ?_⟩
    rintro ⟨-, h⟩
    cases h
  · rw [if_neg hempty]
    dsimp only
    rw [bind_text_eq_ok_iff]
    by_cases hroot : path.toList.head? = some '/'
    · rw [if_pos hroot]
      exact ⟨fun h => absurd h foldlM_step_outside, fun h => absurd hroot h.1⟩
    · rw [if_neg hroot]
      exact ⟨fun h => ⟨hroot, h⟩, And.right⟩

end Folder

theorem Options.exit_outcome_eq_zero_iff {options : Options} (h : options.normalized)
    (found : Except ReadFailure String) :
    (options.outcome found).exit = 0 ↔
      ∃ text d, found = .ok text ∧ Definitions.read? text = some d ∧ d.Readable := by
  cases found with
  | error f => exact ⟨nofun, nofun⟩
  | ok text =>
    rw [Options.outcome]
    split
    · next d hread =>
      rw [Definitions.exit_outcome_eq_zero_iff, h, Definitions.exists_writeAll_iff]
      constructor
      · exact fun hd => ⟨text, d, rfl, hread, hd⟩
      · rintro ⟨_, d', ⟨⟩, hread', hd⟩
        cases hread.symm.trans hread'
        exact hd
    · next hread =>
      refine ⟨nofun, ?_⟩
      rintro ⟨_, d, ⟨⟩, hread', -⟩
      cases hread.symm.trans hread'

/-- A run in the folder that writes normalized types succeeds if and only if the path leads to a
file, and the file holds definitions that can all be read. -/
theorem exit_outcome_eq_zero_iff {arguments : List String} {options : Options}
    (hoptions : Options.ofArguments arguments = .ok options) (hnormalized : options.normalized)
    (f : Folder) :
    (outcome arguments f.read).exit = 0 ↔
      options.path.toList.head? ≠ some '/' ∧
        ∃ name text d, Folder.LeadsTo (Folder.components options.path) name ∧
          f.texts.get? name = some text ∧ Definitions.read? text = some d ∧ d.Readable := by
  rw [outcome, hoptions]
  dsimp only
  rw [Options.exit_outcome_eq_zero_iff hnormalized]
  simp only [Folder.read_eq_ok_iff]
  constructor
  · rintro ⟨text, d, ⟨hroot, name, hname, htext⟩, hd⟩
    exact ⟨hroot, name, text, d, hname, htext, hd⟩
  · rintro ⟨hroot, name, text, d, hname, htext, hd⟩
    exact ⟨text, d, ⟨hroot, name, hname, htext⟩, hd⟩

end ValueSyntax
