import ValueSyntax.CommandLine.Options

namespace ValueSyntax

/-- One or two arguments that belong together. -/
inductive ArgumentGroup where
  | limit (text : String)
  | withoutReferences
  | normalized
  | path (text : String)
  deriving DecidableEq

namespace ArgumentGroup

def arguments : ArgumentGroup → List String
  | limit text => ["--max-operands", text]
  | withoutReferences => ["--no-property-refs"]
  | normalized => ["--normalize"]
  | path text => [text]

/-- The limit is a size of ten at most, and a path does not look like an option. -/
def Fits : ArgumentGroup → Prop
  | limit text => ∃ n, Number.size? text.toList = some n ∧ n ≤ 10
  | path text => ¬ "--".toList <+: text.toList
  | _ => True

def limit? : ArgumentGroup → Option Nat
  | limit text => Number.size? text.toList
  | _ => none

def path? : ArgumentGroup → Option String
  | path text => some text
  | _ => none

end ArgumentGroup

/-- The arguments are those of the groups, one after the other. -/
structure Splits (groups : List ArgumentGroup) (arguments : List String) : Prop where
  arguments_eq : arguments = groups.flatMap (·.arguments)
  fits : ∀ g ∈ groups, g.Fits

/-- No group that fits stands at the head of the arguments, for this reason. -/
inductive Misfit : List String → ArgumentError → Prop
  | missingValue : Misfit ["--max-operands"] (.missingValue "--max-operands")
  | invalidValue {value : String} {rest : List String}
      (h : ∀ n, Number.size? value.toList = some n → 10 < n) :
      Misfit ("--max-operands" :: value :: rest) (.invalidValue "--max-operands" value)
  | unknownOption {option : String} {rest : List String} (h : "--".toList <+: option.toList)
      (hne : option ∉ ["--max-operands", "--no-property-refs", "--normalize"]) :
      Misfit (option :: rest) (.unknownOption option)

/-- The options are what the groups say; of each kind the last one counts. -/
structure Options.Says (options : Options) (groups : List ArgumentGroup) : Prop where
  path : (groups.filterMap (·.path?)).getLast? = some options.path
  maxOperands : options.settings.maxOperands = (groups.filterMap (·.limit?)).getLast?.getD 8
  inlineProperties : options.settings.inlineProperties = decide (.withoutReferences ∉ groups)
  fallbackOnEmpty : options.settings.fallbackOnEmpty = true
  normalized : options.normalized = decide (.normalized ∈ groups)

section Reading

variable {groups : List ArgumentGroup} {arguments rest : List String} {path : Option String}
  {settings : Settings} {normalized : Bool}

theorem Options.isOption_iff {text : String} :
    isOption text = true ↔ "--".toList <+: text.toList :=
  List.isPrefixOf_iff_prefix

theorem Options.limit?_eq_some_iff {text : String} {n : Nat} :
    limit? text = some n ↔ Number.size? text.toList = some n ∧ n ≤ 10 := by
  rw [limit?, Option.filter_eq_some_iff, decide_eq_true_iff, operandCeiling]

theorem Options.limit?_eq_none_iff {text : String} :
    limit? text = none ↔ ∀ n, Number.size? text.toList = some n → 10 < n := by
  rw [limit?, Option.filter_eq_none_iff]
  simp only [decide_eq_true_iff, Nat.not_le]
  rfl

theorem Options.readFrom_group {g : ArgumentGroup} (h : g.Fits) :
    readFrom path settings normalized (g.arguments ++ rest) =
      readFrom (g.path?.or path)
        { settings with
          maxOperands := g.limit?.getD settings.maxOperands
          inlineProperties := decide (g ≠ .withoutReferences) && settings.inlineProperties }
        (decide (g = .normalized) || normalized) rest := by
  cases g with
  | limit text =>
    -- The value is taken whatever it looks like, so only the size and the ceiling matter.
    obtain ⟨n, hsize, hle⟩ := h
    have hlimit := limit?_eq_some_iff.mpr ⟨hsize, hle⟩
    rw [ArgumentGroup.arguments, List.cons_append, readFrom.eq_def]
    simp [hlimit, hsize, ArgumentGroup.limit?, ArgumentGroup.path?]
  | withoutReferences =>
    rw [ArgumentGroup.arguments, List.cons_append, readFrom.eq_def]
    simp [ArgumentGroup.limit?, ArgumentGroup.path?]
  | normalized =>
    rw [ArgumentGroup.arguments, List.cons_append, readFrom.eq_def]
    simp [ArgumentGroup.limit?, ArgumentGroup.path?]
  | path text =>
    have hoption : isOption text = false := by
      rw [← Bool.not_eq_true, isOption_iff]
      exact h
    have hne : ∀ option, isOption option = true → text ≠ option := by
      rintro option hopt rfl
      rw [hoption] at hopt
      cases hopt
    have hlimit := hne "--max-operands" (by decide)
    have hreferences := hne "--no-property-refs" (by decide)
    have hnormalize := hne "--normalize" (by decide)
    rw [ArgumentGroup.arguments, List.cons_append, readFrom.eq_def]
    simp [hlimit, hreferences, hnormalize, hoption, ArgumentGroup.limit?, ArgumentGroup.path?]

theorem getLast?_filterMap_cons {α β : Type} (part? : α → Option β) (a : α) (l : List α) :
    ((a :: l).filterMap part?).getLast? = (l.filterMap part?).getLast?.or (part? a) := by
  rw [List.filterMap_cons]
  cases part? a with
  | none => simp
  | some b =>
    rw [List.getLast?_cons]
    cases (l.filterMap part?).getLast? <;> rfl

theorem Options.readFrom_groups (h : ∀ g ∈ groups, g.Fits) :
    readFrom path settings normalized (groups.flatMap (·.arguments) ++ rest) =
      readFrom ((groups.filterMap (·.path?)).getLast?.or path)
        { settings with
          maxOperands := (groups.filterMap (·.limit?)).getLast?.getD settings.maxOperands
          inlineProperties := decide (.withoutReferences ∉ groups) && settings.inlineProperties }
        (decide (.normalized ∈ groups) || normalized) rest := by
  -- What has been read before is left open, since each group changes it for those after it.
  induction groups generalizing path settings normalized with
  | nil => simp
  | cons g groups ih =>
    obtain ⟨hg, hgroups⟩ := List.forall_mem_cons.mp h
    rw [List.flatMap_cons, List.append_assoc, readFrom_group hg, ih hgroups]
    congr 1
    · rw [getLast?_filterMap_cons, Option.or_assoc]
    · rw [getLast?_filterMap_cons, Option.getD_or, ← Bool.and_assoc]
      congr 2
      rw [← Bool.decide_and]
      exact decide_eq_decide.mpr (by simp [and_comm, eq_comm])
    · rw [← Bool.or_assoc, ← Bool.decide_or]
      congr 1
      exact decide_eq_decide.mpr (by simp [or_comm, eq_comm])

theorem Options.readFrom_misfit {error : ArgumentError} (h : Misfit arguments error) :
    readFrom path settings normalized arguments = .error error := by
  cases h with
  | missingValue => rw [readFrom.eq_def]; simp
  | invalidValue h =>
    rw [readFrom.eq_def]
    simp [limit?_eq_none_iff.mpr h]
  | unknownOption h hne =>
    rw [readFrom.eq_def]
    simp only [List.mem_cons, List.not_mem_nil, or_false, not_or] at hne
    simp [hne, isOption_iff.mpr h]

theorem ArgumentGroup.exists_of_cons (argument : String) (rest : List String) :
    (∃ (g : ArgumentGroup) (rest' : List String),
        g.Fits ∧ argument :: rest = g.arguments ++ rest') ∨
      ∃ error, Misfit (argument :: rest) error := by
  by_cases hlimit : argument = "--max-operands"
  · subst hlimit
    cases rest with
    | nil => exact Or.inr ⟨_, .missingValue⟩
    | cons value rest =>
      cases hn : Options.limit? value with
      | none => exact Or.inr ⟨_, .invalidValue (Options.limit?_eq_none_iff.mp hn)⟩
      | some n =>
        exact Or.inl ⟨.limit value, rest, ⟨n, Options.limit?_eq_some_iff.mp hn⟩, rfl⟩
  by_cases hreferences : argument = "--no-property-refs"
  · exact Or.inl ⟨.withoutReferences, rest, trivial, by rw [hreferences]; rfl⟩
  by_cases hnormalize : argument = "--normalize"
  · exact Or.inl ⟨.normalized, rest, trivial, by rw [hnormalize]; rfl⟩
  by_cases hoption : "--".toList <+: argument.toList
  · exact Or.inr ⟨_, .unknownOption hoption (by simp [hlimit, hreferences, hnormalize])⟩
  · exact Or.inl ⟨.path argument, rest, hoption, rfl⟩

theorem exists_groups (arguments : List String) :
    ∃ (groups : List ArgumentGroup) (rest : List String), (∀ g ∈ groups, g.Fits) ∧
      arguments = groups.flatMap (·.arguments) ++ rest ∧
      (rest = [] ∨ ∃ error, Misfit rest error) := by
  match arguments with
  | [] => exact ⟨[], [], nofun, rfl, Or.inl rfl⟩
  | argument :: arguments =>
    rcases ArgumentGroup.exists_of_cons argument arguments with ⟨g, more, hg, hmore⟩ | hmisfit
    · have hlt : more.length < (argument :: arguments).length := by
        rw [hmore, List.length_append]
        cases g <;> simp [ArgumentGroup.arguments]
      obtain ⟨groups, rest, hgroups, hrest, hends⟩ := exists_groups more
      refine ⟨g :: groups, rest, List.forall_mem_cons.mpr ⟨hg, hgroups⟩, ?_, hends⟩
      rw [hmore, hrest, List.flatMap_cons, List.append_assoc]
    · exact ⟨[], _, nofun, rfl, Or.inr hmisfit⟩
termination_by arguments.length
decreasing_by exact hlt

theorem Options.readFrom_splits (h : Splits groups arguments) :
    readFrom path settings normalized arguments =
      readFrom ((groups.filterMap (·.path?)).getLast?.or path)
        { settings with
          maxOperands := (groups.filterMap (·.limit?)).getLast?.getD settings.maxOperands
          inlineProperties := decide (.withoutReferences ∉ groups) && settings.inlineProperties }
        (decide (.normalized ∈ groups) || normalized) [] := by
  rw [h.arguments_eq, ← List.append_nil (groups.flatMap _)]
  exact readFrom_groups h.fits

theorem Options.ofArguments_of_splits (h : Splits groups arguments) {options : Options} :
    ofArguments arguments = .ok options ↔ options.Says groups := by
  rw [ofArguments, readFrom_splits h]
  cases hpath : (groups.filterMap (·.path?)).getLast? with
  | none =>
    simp only [Option.or_none, readFrom, reduceCtorEq, false_iff]
    rintro ⟨hsaid, -⟩
    rw [hpath] at hsaid
    cases hsaid
  | some path =>
    simp only [Option.some_or, readFrom, Except.ok.injEq]
    constructor
    · rintro rfl
      exact ⟨hpath, rfl, by simp, rfl, by simp⟩
    · rintro ⟨hsaid, hmax, hinline, hfallback, hnormalized⟩
      obtain ⟨path', ⟨max, inline, fallback⟩, normalized⟩ := options
      rw [hpath] at hsaid
      cases hsaid
      simp_all

theorem Options.ofArguments_of_no_path (h : Splits groups arguments)
    (hpath : groups.filterMap (·.path?) = []) :
    ofArguments arguments = .error .missingTables := by
  rw [ofArguments, readFrom_splits h, hpath]
  rfl

theorem Options.ofArguments_of_misfit (h : ∀ g ∈ groups, g.Fits) {error : ArgumentError}
    (herror : Misfit rest error) :
    ofArguments (groups.flatMap (·.arguments) ++ rest) = .error error := by
  rw [ofArguments, readFrom_groups h, readFrom_misfit herror]

theorem Splits.maxOperands_le (h : Splits groups arguments) {options : Options}
    (hsaid : options.Says groups) : options.settings.maxOperands ≤ 10 := by
  rw [hsaid.maxOperands]
  cases hlast : (groups.filterMap (·.limit?)).getLast? with
  | none => decide
  | some n =>
    obtain ⟨g, hg, hn⟩ := List.mem_filterMap.mp (List.mem_of_getLast? hlast)
    cases g with
    | limit text =>
      obtain ⟨m, hm, hle⟩ := h.fits _ hg
      cases hm.symm.trans hn
      exact hle
    | _ => cases hn

theorem path?_eq_nil_iff :
    groups.filterMap (·.path?) = [] ↔ ∀ text, .path text ∉ groups := by
  rw [List.filterMap_eq_nil_iff]
  constructor
  · intro h text hmem
    cases h _ hmem
  · intro h g hg
    cases g with
    | path text => exact absurd hg (h text)
    | _ => rfl

theorem Options.Says.exists_path {options : Options} (h : options.Says groups) :
    ∃ text, .path text ∈ groups := by
  obtain ⟨g, hg, hpath⟩ := List.mem_filterMap.mp (List.mem_of_getLast? h.path)
  cases g with
  | path text => exact ⟨text, hg⟩
  | _ => cases hpath

theorem Options.exists_says {text : String} (h : .path text ∈ groups) :
    ∃ options : Options, options.Says groups := by
  cases hpath : (groups.filterMap (·.path?)).getLast? with
  | none => exact absurd h (path?_eq_nil_iff.mp (List.getLast?_eq_none_iff.mp hpath) text)
  | some path =>
    exact ⟨⟨path, ⟨_, _, true⟩, _⟩, hpath, rfl, rfl, rfl, rfl⟩

theorem splits_or_misfit (arguments : List String) :
    (∃ groups, Splits groups arguments) ∨
      ∃ (groups : List ArgumentGroup) (rest : List String) (error : ArgumentError),
        (∀ g ∈ groups, g.Fits) ∧ arguments = groups.flatMap (·.arguments) ++ rest ∧
          Misfit rest error := by
  obtain ⟨groups, rest, hfits, rfl, rfl | ⟨error, herror⟩⟩ := exists_groups arguments
  · exact Or.inl ⟨groups, List.append_nil _, hfits⟩
  · exact Or.inr ⟨groups, rest, error, hfits, rfl, herror⟩

end Reading

/-- A command line is understood if and only if its arguments fall into groups that fit, with a path
among them; then the options are what the groups say, and the limit that they set is the one that
resolution goes by. Any other command line is refused for the first group that does not fit, and if
there is none, then for the path that it lacks. -/
theorem ofArguments_reads_groups (arguments : List String) :
    (∀ options, Options.ofArguments arguments = .ok options ↔
      ∃ groups, Splits groups arguments ∧ options.Says groups ∧
        options.settings.operandLimit = options.settings.maxOperands) ∧
    ((∃ options, Options.ofArguments arguments = .ok options) ↔
      ∃ groups, Splits groups arguments ∧ ∃ text, .path text ∈ groups) ∧
    ∀ error, Options.ofArguments arguments = .error error ↔
      (∃ (groups : List ArgumentGroup) (rest : List String), (∀ g ∈ groups, g.Fits) ∧
        arguments = groups.flatMap (·.arguments) ++ rest ∧ Misfit rest error) ∨
      (error = .missingTables ∧
        ∃ groups, Splits groups arguments ∧ ∀ text, .path text ∉ groups) := by
  -- Only arguments that fall into groups give options, for a misfit is an error.
  have hsaid : ∀ options, Options.ofArguments arguments = .ok options →
      ∃ groups, Splits groups arguments ∧ options.Says groups := by
    intro options h
    rcases splits_or_misfit arguments with ⟨groups, hsplits⟩ | ⟨_, _, _, hfits, rfl, herror⟩
    · exact ⟨groups, hsplits, (Options.ofArguments_of_splits hsplits).mp h⟩
    · rw [Options.ofArguments_of_misfit hfits herror] at h
      cases h
  refine ⟨fun options => ⟨fun h => ?_, ?_⟩, ⟨?_, ?_⟩, fun error => ⟨fun h => ?_, ?_⟩⟩
  · obtain ⟨groups, hsplits, h⟩ := hsaid options h
    exact ⟨groups, hsplits, h, Nat.min_eq_left (hsplits.maxOperands_le h)⟩
  · rintro ⟨groups, hsplits, h, -⟩
    exact (Options.ofArguments_of_splits hsplits).mpr h
  · rintro ⟨options, h⟩
    obtain ⟨groups, hsplits, h⟩ := hsaid options h
    exact ⟨groups, hsplits, h.exists_path⟩
  · rintro ⟨groups, hsplits, text, htext⟩
    obtain ⟨options, h⟩ := Options.exists_says htext
    exact ⟨options, (Options.ofArguments_of_splits hsplits).mpr h⟩
  · rcases splits_or_misfit arguments with ⟨groups, hsplits⟩ |
      ⟨groups, rest, error', hfits, rfl, herror⟩
    · have hpath : ∀ text, .path text ∉ groups := by
        intro text htext
        obtain ⟨options, hoptions⟩ := Options.exists_says htext
        rw [(Options.ofArguments_of_splits hsplits).mpr hoptions] at h
        cases h
      rw [Options.ofArguments_of_no_path hsplits (path?_eq_nil_iff.mpr hpath)] at h
      cases h
      exact Or.inr ⟨rfl, groups, hsplits, hpath⟩
    · rw [Options.ofArguments_of_misfit hfits herror] at h
      cases h
      exact Or.inl ⟨groups, rest, hfits, rfl, herror⟩
  · rintro (⟨groups, rest, hfits, rfl, herror⟩ | ⟨rfl, groups, hsplits, hpath⟩)
    · exact Options.ofArguments_of_misfit hfits herror
    · exact Options.ofArguments_of_no_path hsplits (path?_eq_nil_iff.mpr hpath)

/-- The value of an option is taken even if it looks like an option itself. -/
example : Options.ofArguments ["t.json", "--max-operands", "--normalize", "--verbose"] =
    .error (.invalidValue "--max-operands" "--normalize") := rfl

end ValueSyntax
