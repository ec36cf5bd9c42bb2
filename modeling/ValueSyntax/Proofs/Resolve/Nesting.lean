import Mathlib.Order.OrderIsoNat
import ValueSyntax.Proofs.Resolve.Calls

namespace ValueSyntax

open Relation

/-- The calls that a request makes itself: of a tree, or of an entry that the catalog defines. -/
def Call.Starts (k : Catalog) : Call → Prop
  | node _ _ => True
  | reference _ _ => False
  | entry e text => k.Defines e text

/-- The sessions in which no call is open. Between calls a request also reads texts, answers from
memory, warns and remembers what it has found. -/
inductive Catalog.AtRest (k : Catalog) : Session → Prop
  | start : AtRest k {}
  | call {f : Frame} (h : AtRest k f.session) (hf : f.call.Starts k) : AtRest k (f.after k)
  | read {s : Session} (h : AtRest k s) (source : Source) : AtRest k (leaves (readTree source) s)
  | hitText {s : Session} (h : AtRest k s) : AtRest k s.hitText
  | warn {s : Session} (h : AtRest k s) (w : Warning) : AtRest k (s.warn w)
  | rememberText {s : Session} (h : AtRest k s) (text : String) (types : List Shape) :
      AtRest k (s.rememberText text types)
  | rememberEntry {s : Session} (h : AtRest k s) {name : String} {builtin : Builtin}
      (hb : Builtin.ofName? name = some builtin) :
      AtRest k (s.rememberEntry (.dataType name) [builtin.shape])
  | rememberLength {s : Session} (h : AtRest k s) (needed : Bool) (name : String) :
      AtRest k (s.rememberLength needed name)

theorem Frame.Nested.of_starts {k : Catalog} {f : Frame} (hs : f.session.Booked k [])
    (hf : f.call.Starts k) : f.Nested k [] := by
  obtain ⟨call, s⟩ := f
  cases call with
  | node t referrer => exact ⟨hs, .nil, trivial⟩
  | reference name referrer => exact hf.elim
  | entry e text => exact ⟨hs, .entry hf, hf, List.not_mem_nil⟩

namespace Catalog.AtRest

variable {k : Catalog} {s : Session}

theorem booked (h : k.AtRest s) : s.Booked k [] := by
  have hupheld := Session.Booked.upheld k
  induction h with
  | start => exact .start
  | call _ hf ih => exact (Frame.Nested.of_starts ih hf).after
  | read _ source ih => exact (hupheld.readTree source).leaves ih
  | hitText _ ih => exact hupheld.hitText ih
  | warn _ w ih => exact ih.warn w
  | rememberText _ text types ih => exact hupheld.rememberText ih text types
  | rememberEntry _ hb ih => exact ih.rememberEntry hb
  | rememberLength _ needed name ih => exact hupheld.rememberLength _ needed name ih

theorem entry {e : Entry} {text : String} (hdef : k.Defines e text) :
    Confines k.AtRest (fun _ => True) (resolveEntry k (expandProperty k [e]) e text) := by
  refine .of_leaves fun s hs => ?_
  -- At rest nothing is marked, so the call runs on the path that a request gives it.
  have h : k.AtRest (Frame.after k ⟨.entry e text, s⟩) := .call hs hdef
  rwa [Frame.after, Frame.resolve, Frame.path, hs.booked.inProgress] at h

theorem node (t : Tree) (referrer : String) :
    Confines k.AtRest (fun _ => True) (t.shapes k (expandProperty k []) referrer) := by
  refine .of_leaves fun s hs => ?_
  have h : k.AtRest (Frame.after k ⟨.node t referrer, s⟩) := .call hs trivial
  rwa [Frame.after, Frame.resolve, Frame.path, hs.booked.inProgress, Call.resolve, leaves_map] at h

theorem readTree (source : Source) :
    Confines k.AtRest (fun _ => True) (readTree source) :=
  .of_leaves fun _ hs => hs.read source

theorem perform (r : Request) : Confines k.AtRest (fun _ => True) (r.perform k) := by
  refine .perform (fun name _ => Confines.unnamed ?_)
    (fun _ needed name hs => hs.rememberLength needed name)
    (fun _ _ hget => Confines.unnamed (entry hget)) (fun _ _ => trivial) (fun _ _ => trivial)
    (fun _ => .start) (fun source _ => Confines.unnamed ?_)
    (fun t referrer _ => Confines.unnamed (.map (node t referrer))) fun source _ => readTree source
  · exact .dataTypeShapes (fun _ _ hs => hs.warn _) (fun _ _ hs hb => hs.rememberEntry hb)
      fun _ hdef => entry hdef
  · exact .textShapes (fun _ hs => hs.hitText) (fun _ types hs => hs.rememberText _ types)
      (.bind (readTree source) fun t => .bind (node t _) fun _ => .pure _)

theorem sessionAfter (k : Catalog) (history : List Request) :
    k.AtRest (k.sessionAfter history) := by
  refine k.sessionAfter_induction .start (fun s r hs => ?_) history
  rw [Request.after_eq]
  exact (perform r).leaves hs

end Catalog.AtRest

/-- The calls that are open at some moment, the innermost first. -/
inductive Catalog.Stack (k : Catalog) : List Frame → Prop
  | start {f : Frame} (hs : k.AtRest f.session) (hf : f.call.Starts k) : Stack k [f]
  | call {f g : Frame} {below : List Frame} (h : Stack k (f :: below)) (hcall : f.Calls k g) :
      Stack k (g :: f :: below)

def entriesOf (frames : List Frame) : List Entry := frames.flatMap (·.call.marks)

theorem Catalog.Stack.nested {k : Catalog} {f : Frame} {below : List Frame}
    (h : k.Stack (f :: below)) : f.Nested k (entriesOf below) := by
  generalize hframes : f :: below = frames at h
  induction h generalizing f below with
  | start hs hf =>
    cases hframes
    exact .of_starts hs.booked hf
  | call h hcall ih =>
    cases hframes
    exact (ih rfl).of_calls hcall

/-- How a call stands above those that are open. -/
structure Frame.InOrder (k : Catalog) (below : List Frame) (f : Frame) : Prop where
  /-- Marked is what the open calls resolve, and nothing else. -/
  inProgress : f.session.inProgress = entriesOf below
  /-- Only what is not marked yet is marked. -/
  fresh : ∀ e ∈ f.call.marks, e ∉ f.session.inProgress
  marks : k.Marks (entriesOf (f :: below))
  depth : (entriesOf (f :: below)).length ≤ k.properties.size + 1
  /-- The marks that the call makes are removed, whether it succeeds or fails. -/
  restored : (f.after k).inProgress = f.session.inProgress
  decreasing : ∀ g, f.Calls k g → g.weight k < f.weight k
  /-- No call is left out: nothing but the calls below it decides what the call does. -/
  covered : ∀ inner : Call → Resolving (List Shape),
    (∀ g, TransGen (Frame.Calls k) f g → inner g.call g.session = g.resolve k g.session) →
    f.call.run k inner f.session = f.resolve k f.session

theorem Catalog.Stack.inOrder {k : Catalog} {f : Frame} {below : List Frame}
    (h : k.Stack (f :: below)) : f.InOrder k below := by
  have hf := h.nested
  exact
    { inProgress := hf.booked.inProgress
      fresh := hf.fresh
      marks := hf.marks
      depth := hf.marks.length_le
      restored := hf.after.inProgress.trans hf.booked.inProgress.symm
      decreasing := fun _ => hf.weight_lt
      covered := fun _ => hf.run_eq }

/-- No sequence of calls, each made by the one before, goes on for ever. -/
theorem Catalog.Stack.ends {k : Catalog} (frames : Nat → Frame) (h : k.Stack [frames 0]) :
    ∃ n, ¬ (frames n).Calls k (frames (n + 1)) := by
  by_contra! hcalls
  have hstack : ∀ n, ∃ below, k.Stack (frames n :: below) := by
    intro n
    induction n with
    | zero => exact ⟨[], h⟩
    | succ n ih =>
      obtain ⟨below, ih⟩ := ih
      exact ⟨_, ih.call (hcalls n)⟩
  -- Each of the calls stands on a stack, so their weights descend for ever.
  refine not_strictAnti_of_wellFoundedLT (fun n => (frames n).weight k)
    (strictAnti_nat_of_succ_lt fun n => ?_)
  obtain ⟨below, hn⟩ := hstack n
  exact hn.nested.weight_lt (hcalls n)

/-- However the definitions of a catalog refer to each other, every resolution ends. After any
history no call is open, and nothing is marked. On any stack of open calls, marked is what they
resolve: at most one data type, and otherwise properties of the table, each of them once. So at most
one more than there are properties are expanded in each other. An entry is marked only if it is not
yet, its mark is removed on every exit, and each call has less left to expand than the one that
makes it, or as much and a smaller tree to go through. No call is missed: each does what the calls
below it make of it. -/
theorem nested_resolutions_end (k : Catalog) :
    (∀ history, k.AtRest (k.sessionAfter history)) ∧ (∀ s, k.AtRest s → s.inProgress = []) ∧
    (∀ f below, k.Stack (f :: below) → f.InOrder k below) ∧
    ∀ frames : Nat → Frame, k.Stack [frames 0] → ∃ n, ¬ (frames n).Calls k (frames (n + 1)) :=
  ⟨.sessionAfter k, fun _ hs => hs.booked.inProgress, fun _ _ h => h.inOrder, Catalog.Stack.ends⟩

/-- A data type that leads into a cycle of two properties. -/
def cyclic : Catalog where
  dataTypes := .ofList [("d", "<'p'>")]
  properties := .ofList [("p", "<'q'>"), ("q", "a | <'p'>")]

theorem readTree_of_new {source : Source} {s : Session} {t : Tree}
    (hnew : s.trees.lookup source.text = none) (ht : source.tree = .ok t) :
    readTree source s = .ok t (s.rememberTree source.text t) := by
  rw [readTree, get_bind_at, hnew, ht]
  rfl

/-- All that may be expanded in each other is, until the cycle closes. -/
theorem nested_resolutions_end_on_cycle :
    ∃ f below, cyclic.Stack (f :: below) ∧ f.InOrder cyclic below ∧
      entriesOf (f :: below) = [.property "q", .property "p", .dataType "d"] ∧
      cyclic.properties.size = 2 := by
  let toP : Tree := .reference "p" none true
  let toQ : Tree := .reference "q" none true
  let back : Tree := .joined .oneOf [.keyword "a", toP]
  let s₁ : Session := (Session.enter (.dataType "d") {}).rememberTree "<'p'>" toP
  let s₂ : Session := (s₁.enter (.property "p")).rememberTree "<'q'>" toQ
  let s₃ : Session := (s₂.enter (.property "q")).rememberTree "a | <'p'>" back
  have readD : readTree ⟨"d", "<'p'>"⟩ (Session.enter (.dataType "d") {}) = .ok toP s₁ :=
    readTree_of_new rfl (by decide +kernel)
  have readP : readTree ⟨"p", "<'q'>"⟩ (s₁.enter (.property "p")) = .ok toQ s₂ :=
    readTree_of_new rfl (by decide +kernel)
  have readQ : readTree ⟨"q", "a | <'p'>"⟩ (s₂.enter (.property "q")) = .ok back s₃ :=
    readTree_of_new rfl (by decide +kernel)
  have hd : cyclic.Stack [⟨.entry (.dataType "d") "<'p'>", {}⟩] := .start .start ⟨rfl, rfl⟩
  have hp := ((hd.call (.definition rfl rfl readD)).call .reference).call
    (@Frame.Calls.expansion _ _ "<'q'>" _ _ rfl rfl (by decide))
  have hq := ((hp.call (.definition rfl rfl readP)).call .reference).call
    (@Frame.Calls.expansion _ _ "a | <'p'>" _ _ rfl rfl (by decide))
  exact ⟨_, _, hq, (nested_resolutions_end cyclic).2.2.1 _ _ hq, rfl, rfl⟩

end ValueSyntax
