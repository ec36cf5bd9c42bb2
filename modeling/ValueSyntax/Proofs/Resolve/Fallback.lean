import ValueSyntax.Proofs.Resolve.History
import ValueSyntax.Proofs.Resolve.Lockstep
import ValueSyntax.Proofs.Shapes.Loosening

namespace ValueSyntax

open Ascending Shapes

/-- The same definitions, where one without shapes allows nothing. -/
def Catalog.strict (k : Catalog) : Catalog :=
  { k with settings := { k.settings with fallbackOnEmpty := false } }

/-- The same definitions, where one without shapes allows any string. -/
def Catalog.lenient (k : Catalog) : Catalog :=
  { k with settings := { k.settings with fallbackOnEmpty := true } }

@[simp] theorem Catalog.dataTypes_strict (k : Catalog) : k.strict.dataTypes = k.dataTypes := rfl

@[simp] theorem Catalog.dataTypes_lenient (k : Catalog) : k.lenient.dataTypes = k.dataTypes := rfl

@[simp] theorem Catalog.properties_strict (k : Catalog) :
    k.strict.properties = k.properties := rfl

@[simp] theorem Catalog.properties_lenient (k : Catalog) :
    k.lenient.properties = k.properties := rfl

/-- Sessions that differ only in the types that they remember. -/
structure Session.FallsBack (s t : Session) : Prop where
  trees : s.trees = t.trees
  texts : s.texts.Like ValueSyntax.FallsBack t.texts
  entries : s.entries.Like ValueSyntax.FallsBack t.entries
  lengths : s.lengths = t.lengths
  resolved : s.resolved = t.resolved
  inProgress : s.inProgress = t.inProgress
  openCycles : s.openCycles = t.openCycles
  warnings : s.warnings = t.warnings
  statistics : s.statistics = t.statistics

namespace Session.FallsBack

variable {s t : Session}

theorem start : Session.FallsBack {} {} :=
  ⟨rfl, .nil, .nil, rfl, rfl, rfl, rfl, rfl, rfl⟩

theorem warn (h : s.FallsBack t) (w : Warning) : (s.warn w).FallsBack (t.warn w) :=
  { h with
    warnings := congrArg (w :: ·) h.warnings
    statistics := congrArg (Session.count w) h.statistics }

theorem hitTree (h : s.FallsBack t) : s.hitTree.FallsBack t.hitTree :=
  { h with statistics := by simp only [Session.hitTree, h.statistics] }

theorem hitText (h : s.FallsBack t) : s.hitText.FallsBack t.hitText :=
  { h with statistics := by simp only [Session.hitText, h.statistics] }

theorem rememberTree (h : s.FallsBack t) (text : String) (tree : Tree) :
    (s.rememberTree text tree).FallsBack (t.rememberTree text tree) :=
  { h with
    trees := congrArg ((text, tree) :: ·) h.trees
    statistics := by simp only [Session.rememberTree, h.statistics] }

variable {l m : List Shape}

theorem rememberText (h : s.FallsBack t) (text : String) (hl : ValueSyntax.FallsBack l m) :
    (s.rememberText text l).FallsBack (t.rememberText text m) :=
  { h with texts := .cons ⟨rfl, hl⟩ h.texts }

theorem rememberEntry (h : s.FallsBack t) (entry : Entry) (hl : ValueSyntax.FallsBack l m) :
    (s.rememberEntry entry l).FallsBack (t.rememberEntry entry m) :=
  { h with entries := .cons ⟨rfl, hl⟩ h.entries }

theorem record (h : s.FallsBack t) (entry : Entry) (hl : ValueSyntax.FallsBack l m) :
    (s.record entry l).FallsBack (t.record entry m) :=
  { h with
    entries := .cons ⟨rfl, hl⟩ h.entries
    resolved := congrArg (entry :: ·) h.resolved
    statistics := by simp only [Session.record, h.statistics] }

theorem rememberLength (h : s.FallsBack t) (needed : Bool) (name : String) :
    (s.rememberLength needed name).FallsBack (t.rememberLength needed name) :=
  { h with lengths := congrArg ((name, needed) :: ·) h.lengths }

theorem rememberEach (h : s.FallsBack t) (names : List String) :
    (names.foldl (Session.rememberLength false) s).FallsBack
      (names.foldl (Session.rememberLength false) t) := by
  induction names generalizing s t with
  | nil => exact h
  | cons name names ih => exact ih (h.rememberLength false name)

theorem openCycle (h : s.FallsBack t) (name : String) :
    (s.openCycle name).FallsBack (t.openCycle name) := by
  unfold Session.openCycle
  rw [h.openCycles]
  split
  · exact h
  · exact { h with openCycles := rfl }

theorem enter (h : s.FallsBack t) (entry : Entry) : (s.enter entry).FallsBack (t.enter entry) := by
  unfold Session.enter
  rw [h.inProgress]
  split
  · exact h
  · exact { h with inProgress := rfl }

theorem close (h : s.FallsBack t) (entry : Entry) : (s.close entry).FallsBack (t.close entry) := by
  have hprogress := congrArg (List.filter (· ≠ entry)) h.inProgress
  cases entry with
  | property name =>
    exact
      { h with
        inProgress := hprogress
        openCycles := congrArg (List.filter (· ≠ name)) h.openCycles }
  | dataType name => exact { h with inProgress := hprogress }

end Session.FallsBack

/-- The computations go in step, the second with looser types in its session. -/
abbrev GoAlong {α β : Type} (like : α → β → Prop) (x : Resolving α) (y : Resolving β) : Prop :=
  InStep Session.FallsBack like x y

namespace GoAlong

variable {k : Catalog}

theorem warn (w : Warning) : GoAlong (fun _ _ => True) (warn w) (warn w) :=
  .modify fun _ _ hs => hs.warn w

theorem widened (w : Warning) : GoAlong Loosens (widened w) (widened w) :=
  .bind (warn w) fun _ _ _ => .pure (.refl _)

theorem readTree (source : Source) : GoAlong Eq (readTree source) (readTree source) := by
  refine .bind .get fun s t hs => ?_
  rw [hs.trees]
  split
  · exact .bind (.modify fun _ _ hs => hs.hitTree) fun _ _ _ => .pure rfl
  · split
    · exact .throw _
    · exact .bind (.modify fun _ _ hs => hs.rememberTree _ _) fun _ _ _ => .pure rfl

section Trees

variable {expand expand' : String → String → Resolving Shapes} {referrer : String}

def Expanded (expand expand' : String → String → Resolving Shapes) : Prop :=
  ∀ name referrer, GoAlong Loosens (expand name referrer) (expand' name referrer)

open ValueSyntax.Tree

theorem enumerates_strict (c : Connective) (n : Nat) :
    c.enumerates k.strict n = c.enumerates k n := by
  cases c <;> rfl

theorem enumerates_lenient (c : Connective) (n : Nat) :
    c.enumerates k.lenient n = c.enumerates k n := by
  cases c <;> rfl

mutual

theorem shapes (hexp : Expanded expand expand') : ∀ t : Tree,
    GoAlong Loosens (t.shapes k.strict expand referrer) (t.shapes k.lenient expand' referrer)
  | keyword _ | symbol _ _ | number _ _ | function _ _ | group _ false
  | joined .juxtaposition [] => by
    rw [Tree.shapes, Tree.shapes]
    exact .pure (.refl _)
  | reference name range true => by
    rw [Tree.shapes, Tree.shapes]
    exact hexp name referrer
  | reference name range false => by
    rw [Tree.shapes, Tree.shapes]
    show GoAlong Loosens (if k.isKnownDataType name then _ else _)
      (if k.isKnownDataType name then _ else _)
    split
    · exact .pure (.refl _)
    · exact .widened _
  | joined .juxtaposition [t] => by
    rw [Tree.shapes, Tree.shapes]
    exact shapes hexp t
  | joined .juxtaposition (t :: t' :: ts) => by
    rw [Tree.shapes, Tree.shapes]
    · exact .pure (.refl _)
    all_goals exact nofun
  | joined .oneOf operands => shapesJoined hexp (by decide) operands
  | joined .anyOrder operands => shapesJoined hexp (by decide) operands
  | joined .allRequired operands => shapesJoined hexp (by decide) operands
  | group inner true => by
    rw [Tree.shapes, Tree.shapes]
    exact shapes hexp inner
  | multiplied inner m => by
    rw [Tree.shapes, Tree.shapes]
    split
    · exact .pure (.refl _)
    · split
      · exact shapes hexp inner
      · exact .pure (.refl _)

theorem shapesJoined (hexp : Expanded expand expand') {c : Connective} (hc : c ≠ .juxtaposition)
    (operands : List Tree) :
    GoAlong Loosens ((joined c operands).shapes k.strict expand referrer)
      ((joined c operands).shapes k.lenient expand' referrer) := by
  rw [shapes_joined hc, shapes_joined hc, enumerates_strict, enumerates_lenient]
  split
  · exact .throw _
  · split
    · next henum =>
      refine .map (shapesEach hexp operands) fun parts parts' ⟨hparts, hlength⟩ => ?_
      exact Loosens.combine (by rwa [hlength]) hparts
    · exact .widened _

theorem shapesEach (hexp : Expanded expand expand') : ∀ ts : List Tree,
    GoAlong (fun parts parts' => List.Forall₂ Loosens parts parts' ∧ parts.length = ts.length)
      (Tree.shapesEach k.strict expand referrer ts) (Tree.shapesEach k.lenient expand' referrer ts)
  | [] => .pure ⟨.nil, rfl⟩
  | t :: ts => by
    rw [Tree.shapesEach, Tree.shapesEach]
    refine .bind (shapes hexp t) fun first first' hfirst =>
      .bind (shapesEach hexp ts) fun others others' ⟨hothers, hlength⟩ => .pure ?_
    exact ⟨.cons hfirst hothers, by rw [List.length_cons, List.length_cons, hlength]⟩

end

theorem resolveSource (hexp : Expanded expand expand') (source : Source) :
    GoAlong FallsBack (resolveSource k.strict expand source)
      (resolveSource k.lenient expand' source) := by
  refine .bind (readTree source) fun t t' ht => ?_
  rw [ht]
  exact .bind (shapes hexp t') fun s s' hs => .pure (hs.finish rfl rfl)

theorem resolveEntry (hexp : Expanded expand expand') (entry : Entry) (text : String) :
    GoAlong FallsBack (resolveEntry k.strict expand entry text)
      (resolveEntry k.lenient expand' entry text) := by
  refine .bind .get fun s t hs => ?_
  rcases hs.entries.lookup entry with ⟨hl, hl'⟩ | ⟨types, types', hl, hl', htypes⟩
  · simp only [hl, hl']
    refine .bind .get fun s t hs => ?_
    rcases hs.texts.lookup text with ⟨hl, hl'⟩ | ⟨types, types', hl, hl', htypes⟩
    · simp only [hl, hl']
      refine .bind (.modify fun _ _ hs => hs.enter entry) fun _ _ _ => ?_
      refine .bind (.closing (fun _ _ hs => hs.close entry) (resolveSource hexp _))
        fun types types' htypes => .bind .get fun s t hs => ?_
      rw [hs.openCycles]
      split
      · exact .bind (.modify fun _ _ hs => hs.rememberText text htypes) fun _ _ _ =>
          .bind (.modify fun _ _ hs => hs.record entry htypes) fun _ _ _ => .pure htypes
      · exact .pure htypes
    · simp only [hl, hl']
      exact .bind (.modify fun _ _ hs => hs.hitText) fun _ _ _ =>
        .bind (.modify fun _ _ hs => hs.record entry htypes) fun _ _ _ => .pure htypes
  · simp only [hl, hl']
    exact .pure htypes

end Trees

theorem expandProperty (path : List Entry) :
    Expanded (expandProperty k.strict path) (expandProperty k.lenient path) := by
  intro name referrer
  by_cases hinline : k.settings.inlineProperties
  · cases hget : k.properties.get? name with
    | none =>
      rw [@expandProperty_of_unknown k.strict path name referrer hinline hget,
        @expandProperty_of_unknown k.lenient path name referrer hinline hget]
      exact .widened _
    | some text =>
      rw [@expandProperty_of_get? k.strict path name referrer text hinline hget,
        @expandProperty_of_get? k.lenient path name referrer text hinline hget]
      split
      · exact .bind (GoAlong.warn _) fun _ _ _ =>
          .bind (.modify fun _ _ hs => hs.openCycle name) fun _ _ _ => .pure (.refl _)
      · next hp =>
        have hlt := Catalog.unexpanded_cons_lt hget hp
        have hnext := expandProperty (.property name :: path)
        exact .map (resolveEntry hnext (.property name) text) fun _ _ htypes => htypes.ofList
  · rw [@expandProperty_of_not_inline k.strict path name referrer hinline,
      @expandProperty_of_not_inline k.lenient path name referrer hinline]
    exact .pure (.refl _)
termination_by k.unexpanded path

theorem dataTypeShapes (name : String) :
    GoAlong FallsBack (dataTypeShapes k.strict name) (dataTypeShapes k.lenient name) := by
  refine .bind .get fun s t hs => ?_
  rcases hs.entries.lookup (.dataType name) with ⟨hl, hl'⟩ | ⟨types, types', hl, hl', htypes⟩
  · simp only [hl, hl']
    cases hb : Builtin.ofName? name with
    | some builtin =>
      have hbuiltin : FallsBack [builtin.shape] [builtin.shape] :=
        .refl (List.cons_ne_nil _ _)
      exact .bind (.modify fun _ _ hs => hs.rememberEntry _ hbuiltin) fun _ _ _ => .pure hbuiltin
    | none =>
      rw [Catalog.dataTypes_strict, Catalog.dataTypes_lenient]
      cases k.dataTypes.get? name with
      | some text => exact resolveEntry (expandProperty _) _ text
      | none => exact .bind (GoAlong.warn _) fun _ _ _ => .pure (.refl (List.cons_ne_nil _ _))
  · simp only [hl, hl']
    exact .pure htypes

theorem throughStack {seen : List String}
    {follow : ∀ visited,
      unseen k.strict.dataTypes.keys visited < unseen k.strict.dataTypes.keys seen →
      List String → Resolving (Bool × List String)}
    {follow' : ∀ visited,
      unseen k.lenient.dataTypes.keys visited < unseen k.lenient.dataTypes.keys seen →
      List String → Resolving (Bool × List String)}
    (hfollow : ∀ visited hlt stack,
      GoAlong Eq (follow visited hlt stack) (follow' visited hlt stack)) :
    ∀ visited hle hle' stack, GoAlong Eq (throughStack k.strict seen follow visited hle stack)
      (throughStack k.lenient seen follow' visited hle' stack)
  | _, _, _, [] => .pure rfl
  | visited, hle, hle', name :: stack => by
    rw [ValueSyntax.throughStack.eq_2, ValueSyntax.throughStack.eq_2]
    split
    · exact throughStack hfollow _ _ _ stack
    · refine .bind .get fun s t hs => ?_
      rw [hs.lengths]
      split
      · exact .pure rfl
      · exact throughStack hfollow _ _ _ stack
      · refine .bind (dataTypeShapes name) fun types types' htypes => ?_
        -- The two lists differ in any string at most, so both searches take the same way.
        have hlength : .length ∈ types ↔ .length ∈ types' := htypes.mem_iff (by decide)
        rw [htypes.names]
        simp only [hlength]
        split
        · exact .pure rfl
        · by_cases hd : k.dataTypes.contains name
          · have hs : k.strict.dataTypes.contains name := hd
            have hl : k.lenient.dataTypes.contains name := hd
            rw [dif_pos hs, dif_pos hl]
            exact hfollow _ _ _
          · have hs : ¬ k.strict.dataTypes.contains name := hd
            have hl : ¬ k.lenient.dataTypes.contains name := hd
            rw [dif_neg hs, dif_neg hl]
            exact throughStack hfollow _ _ _ stack

theorem searchLength (visited stack : List String) :
    GoAlong Eq (searchLength k.strict visited stack) (searchLength k.lenient visited stack) := by
  rw [ValueSyntax.searchLength, ValueSyntax.searchLength]
  exact throughStack (fun visited _ stack => searchLength visited stack) _ _ _ _
termination_by unseen k.dataTypes.keys visited

theorem dataTypeNeedsLength (name : String) :
    GoAlong Eq (dataTypeNeedsLength k.strict name) (dataTypeNeedsLength k.lenient name) := by
  refine .bind .get fun s t hs => ?_
  rw [hs.lengths]
  split
  · exact .pure rfl
  · refine .bind (searchLength [] [name]) fun answer answer' hanswer => ?_
    obtain ⟨found, visited⟩ := answer
    subst hanswer
    dsimp only
    split
    · exact .bind (.modify fun _ _ hs => hs.rememberLength true name) fun _ _ _ => .pure rfl
    · exact .bind (.modify fun _ _ hs => hs.rememberEach visited) fun _ _ _ => .pure rfl

theorem anyNeedsLength :
    ∀ names, GoAlong Eq (anyNeedsLength k.strict names) (anyNeedsLength k.lenient names)
  | [] => .pure rfl
  | name :: names => by
    refine .bind (dataTypeNeedsLength name) fun needed needed' hneeded => ?_
    rw [hneeded]
    split
    · exact .pure rfl
    · exact anyNeedsLength names

theorem needsLength {l m : List Shape} (hnames : dataTypeNames l = dataTypeNames m)
    (hlength : .length ∈ l ↔ .length ∈ m) :
    GoAlong Eq (needsLength k.strict l) (needsLength k.lenient m) := by
  unfold ValueSyntax.needsLength
  simp only [hnames, hlength]
  split
  · exact .pure rfl
  · exact anyNeedsLength _

theorem declare (x : Shape) : GoAlong Eq (declare k.strict x) (declare k.lenient x) := by
  unfold ValueSyntax.declare
  split
  iterate 5 exact .pure rfl
  split
  · exact .pure rfl
  · refine .bind (dataTypeNeedsLength _) fun needed needed' hneeded => ?_
    rw [hneeded]
    exact .pure rfl

theorem normalize (types : List Shape) :
    GoAlong Eq (normalize k.strict types) (normalize k.lenient types) := by
  refine .bind (.mapM declare types) fun declared declared' h => ?_
  rw [h]
  exact .pure rfl

end GoAlong

structure Resolution.FallsBack (r r' : Resolution) : Prop where
  types : ValueSyntax.FallsBack r.types r'.types
  needsLength : r.needsLength = r'.needsLength

inductive Reply.FallsBack : Reply → Reply → Prop
  | unknown : FallsBack .unknown .unknown
  | resolved {r r' : Resolution} (h : r.FallsBack r') : FallsBack (.resolved r) (.resolved r')
  | resolvedEach {l l' : List (String × Resolution)}
      (h : List.Forall₂ (fun e e' => e.1 = e'.1 ∧ e.2.FallsBack e'.2) l l') :
      FallsBack (.resolvedEach l) (.resolvedEach l')
  | tree (t : Tree) : FallsBack (.tree t) (.tree t)
  | flag (b : Bool) : FallsBack (.flag b) (.flag b)
  | declared (types : List Declared) : FallsBack (.declared types) (.declared types)
  | done : FallsBack .done .done

namespace GoAlong

variable {k : Catalog}

theorem resolution {l m : List Shape} (h : FallsBack l m) :
    GoAlong Resolution.FallsBack (resolution k.strict l) (resolution k.lenient m) :=
  .bind (needsLength h.names (h.mem_iff nofun)) fun _ _ hneeded => .pure ⟨h, hneeded⟩

theorem resolveProperty (name : String) :
    GoAlong (Option.Rel Resolution.FallsBack) (resolveProperty k.strict name)
      (resolveProperty k.lenient name) := by
  unfold ValueSyntax.resolveProperty
  rw [Catalog.properties_strict, Catalog.properties_lenient]
  cases k.properties.get? name with
  | none => exact .pure .none
  | some text =>
    exact .bind (resolveEntry (expandProperty _) _ text) fun _ _ htypes =>
      .map (resolution htypes) fun _ _ => .some

theorem resolveDataType (name : String) :
    GoAlong Resolution.FallsBack (resolveDataType k.strict name) (resolveDataType k.lenient name) :=
  .bind (dataTypeShapes name) fun _ _ => resolution

theorem textShapes (source : Source) :
    GoAlong FallsBack (textShapes k.strict source) (textShapes k.lenient source) := by
  refine .bind .get fun s t hs => ?_
  rcases hs.texts.lookup source.text with ⟨hl, hl'⟩ | ⟨types, types', hl, hl', htypes⟩
  · simp only [hl, hl']
    refine .bind (resolveSource (expandProperty []) source) fun types types' htypes =>
      .bind .get fun s t hs => ?_
    rw [hs.openCycles]
    split
    · exact .bind (.modify fun _ _ hs => hs.rememberText _ htypes) fun _ _ _ => .pure htypes
    · exact .pure htypes
  · simp only [hl, hl']
    exact .bind (.modify fun _ _ hs => hs.hitText) fun _ _ _ => .pure htypes

theorem resolveTree (t : Tree) (referrer : String) :
    GoAlong Resolution.FallsBack (resolveTree k.strict t referrer)
      (resolveTree k.lenient t referrer) :=
  .bind (shapes (expandProperty []) t) fun _ _ hs => resolution (hs.finish rfl rfl)

theorem resolveProperties : ∀ names : List String,
    GoAlong (List.Forall₂ fun e e' => e.1 = e'.1 ∧ e.2.FallsBack e'.2)
      (resolveProperties k.strict names) (resolveProperties k.lenient names)
  | [] => .pure .nil
  | name :: names => by
    refine .bind (resolveProperty name) fun found found' hfound =>
      .bind (resolveProperties names) fun others others' hothers => .pure ?_
    cases hfound with
    | some h => exact .cons ⟨rfl, h⟩ hothers
    | none => exact hothers

theorem resolveDataTypes : ∀ names : List String,
    GoAlong (List.Forall₂ fun e e' => e.1 = e'.1 ∧ e.2.FallsBack e'.2)
      (resolveDataTypes k.strict names) (resolveDataTypes k.lenient names)
  | [] => .pure .nil
  | name :: names =>
    .bind (resolveDataType name) fun _ _ h =>
      .bind (resolveDataTypes names) fun _ _ hothers => .pure (.cons ⟨rfl, h⟩ hothers)

theorem perform (r : Request) :
    GoAlong Reply.FallsBack (r.perform k.strict) (r.perform k.lenient) := by
  cases r with
  | property name =>
    refine .bind (resolveProperty name) fun found found' hfound => ?_
    cases hfound with
    | some h => exact .pure (.resolved h)
    | none => exact .pure .unknown
  | dataType name => exact .map (resolveDataType name) fun _ _ => .resolved
  | text source =>
    exact .map (.bind (textShapes source) fun _ _ => resolution) fun _ _ => .resolved
  | tree t referrer => exact .map (resolveTree t referrer) fun _ _ => .resolved
  | parsed source =>
    refine .map (readTree source) fun t t' ht => ?_
    rw [ht]
    exact .tree t'
  | allProperties => exact .map (resolveProperties _) fun _ _ => .resolvedEach
  | allDataTypes => exact .map (resolveDataTypes _) fun _ _ => .resolvedEach
  | needsLength types =>
    refine .map (needsLength rfl Iff.rfl) fun b b' hb => ?_
    rw [hb]
    exact .flag b'
  | dataTypeNeedsLength name =>
    refine .map (dataTypeNeedsLength name) fun b b' hb => ?_
    rw [hb]
    exact .flag b'
  | normalize types =>
    refine .map (normalize types) fun l l' hl => ?_
    rw [hl]
    exact .declared l'
  | reset =>
    have hreset : GoAlong (fun _ _ => True) (set ({} : Session)) (set ({} : Session)) :=
      fun _ _ _ => .ok .start trivial
    exact .bind hreset fun _ _ _ => .pure .done

theorem sessionAfter (history : List Request) :
    (k.strict.sessionAfter history).FallsBack (k.lenient.sessionAfter history) := by
  unfold Catalog.sessionAfter
  suffices ∀ s t : Session, s.FallsBack t →
      (history.foldl (Request.after k.strict) s).FallsBack
        (history.foldl (Request.after k.lenient) t) from this _ _ .start
  induction history with
  | nil => exact fun _ _ hs => hs
  | cons r history ih =>
    intro s t hs
    refine ih _ _ ?_
    unfold Request.after
    have h := @perform k r s t hs
    generalize r.perform k.strict s = x, r.perform k.lenient t = y at h
    cases h with
    | ok hs _ => exact hs
    | error hs => exact hs

end GoAlong

/-- After any history, with and without the fallback, the same warnings have been given, the same
entries resolved and the same counts taken, and the next request fails alike or is answered alike.
Only the types may differ: with the fallback there are at least those without it, at most any
string besides, and never none. -/
theorem fallback_only_loosens (k : Catalog) (history : List Request) (r : Request) :
    let s := k.strict.sessionAfter history
    let t := k.lenient.sessionAfter history
    s.warningList = t.warningList ∧ s.resolvedEntries = t.resolvedEntries ∧
    s.statistics = t.statistics ∧
    match r.perform k.strict s, r.perform k.lenient t with
    | .ok reply _, .ok reply' _ => reply.FallsBack reply'
    | .error e _, .error e' _ => e = e'
    | _, _ => False := by
  intro s t
  have hs : s.FallsBack t := GoAlong.sessionAfter history
  refine ⟨congrArg List.reverse hs.warnings, congrArg List.reverse hs.resolved, hs.statistics, ?_⟩
  have h := @GoAlong.perform k r s t hs
  generalize r.perform k.strict s = x, r.perform k.lenient t = y at h ⊢
  cases h with
  | ok _ hreply => exact hreply
  | error _ => rfl

end ValueSyntax
