import Mathlib.Data.List.Perm.Subperm
import Mathlib.Data.Prod.Lex
import ValueSyntax.Proofs.Resolve.Bookkeeping

namespace ValueSyntax

open Relation

inductive Call where
  /-- A tree in a definition named `referrer`. -/
  | node (t : Tree) (referrer : String)
  | reference (name referrer : String)
  | entry (e : Entry) (text : String)

namespace Call

def resolve (k : Catalog) (path : List Entry) : Call → Resolving (List Shape)
  | node t referrer => (·.toList) <$> t.shapes k (expandProperty k path) referrer
  | reference name referrer => (·.toList) <$> expandProperty k path name referrer
  | entry e text => resolveEntry k (expandProperty k path) e text

/-- What is marked as being resolved on account of the call. -/
def marks : Call → List Entry
  | entry e _ => [e]
  | _ => []

/-- Only an entry that the catalog defines is resolved, and only outside its own resolution. -/
def Allowed (k : Catalog) (path : List Entry) : Call → Prop
  | entry e text => k.Defines e text ∧ e ∉ path
  | _ => True

noncomputable def size : Call → Nat
  | node t _ => sizeOf t
  | reference _ _ => 0
  | entry _ text =>
    match Tree.ofText text with
    | .ok t => sizeOf t + 1
    | .error _ => 0

end Call

/-- A call in the session in which it is made. -/
structure Frame where
  call : Call
  session : Session

namespace Frame

/-- What is being resolved as long as the call runs. -/
def path (f : Frame) : List Entry := f.call.marks ++ f.session.inProgress

def resolve (k : Catalog) (f : Frame) : Resolving (List Shape) := f.call.resolve k f.path

def after (k : Catalog) (f : Frame) : Session := leaves (f.resolve k) f.session

/-- Properties that are not in progress yet, then the size of the tree. -/
noncomputable def weight (k : Catalog) (f : Frame) : Nat ×ₗ Nat :=
  toLex (k.unexpanded f.path, f.call.size)

end Frame

/-- Going through trees one after the other comes to one of them, in the session that the earlier
ones leave. -/
inductive Tree.Comes (k : Catalog) (expand : String → String → Resolving Shapes)
    (referrer : String) : List Tree → Session → Tree → Session → Prop
  | here {t : Tree} {ts : List Tree} {s : Session} : Comes k expand referrer (t :: ts) s t s
  | later {t u : Tree} {ts : List Tree} {s s₁ s' : Session} {first : Shapes}
      (ht : t.shapes k expand referrer s = .ok first s₁)
      (h : Comes k expand referrer ts s₁ u s') : Comes k expand referrer (t :: ts) s u s'

theorem Tree.Comes.mem {k : Catalog} {expand : String → String → Resolving Shapes}
    {referrer : String} {ts : List Tree} {t : Tree} {s s' : Session}
    (h : Comes k expand referrer ts s t s') : t ∈ ts := by
  induction h with
  | here => exact List.mem_cons_self ..
  | later _ _ ih => exact List.mem_cons_of_mem _ ih

/-- A call makes another. What has been marked is expanded no further, and an entry that is
remembered, or whose text is, is not resolved again. -/
inductive Frame.Calls (k : Catalog) : Frame → Frame → Prop
  | operand {c : Connective} {operands : List Tree} {t : Tree} {referrer : String}
      {s s' : Session} (hc : c.enumerates k operands.length)
      (h : Tree.Comes k (expandProperty k s.inProgress) referrer operands s t s') :
      Calls k ⟨.node (.joined c operands) referrer, s⟩ ⟨.node t referrer, s'⟩
  | group {inner : Tree} {referrer : String} {s : Session} :
      Calls k ⟨.node (.group inner true) referrer, s⟩ ⟨.node inner referrer, s⟩
  | multiplied {inner : Tree} {m : Multiplier} {referrer : String} {s : Session}
      (hm : m.max = some 1) :
      Calls k ⟨.node (.multiplied inner m) referrer, s⟩ ⟨.node inner referrer, s⟩
  | reference {name referrer : String} {range : Option Range} {s : Session} :
      Calls k ⟨.node (.reference name range true) referrer, s⟩ ⟨.reference name referrer, s⟩
  | expansion {name text referrer : String} {s : Session} (hi : k.settings.inlineProperties)
      (hget : k.properties.get? name = some text) (hp : .property name ∉ s.inProgress) :
      Calls k ⟨.reference name referrer, s⟩ ⟨.entry (.property name) text, s⟩
  | definition {e : Entry} {text : String} {t : Tree} {s s' : Session}
      (hentry : s.entries.lookup e = none) (htext : s.texts.lookup text = none)
      (hread : readTree ⟨e.name, text⟩ (s.enter e) = .ok t s') :
      Calls k ⟨.entry e text, s⟩ ⟨.node t e.name, s'⟩

/-- What may be marked at once: properties of the table, each of them once, and below them at most
one data type. -/
def Catalog.Marks (k : Catalog) (marks : List Entry) : Prop :=
  ∃ (names : List String) (dataType : Option String),
    marks = names.map .property ++ (dataType.map .dataType).toList ∧
      names.Nodup ∧ ∀ name ∈ names, k.properties.contains name

namespace Catalog.Marks

variable {k : Catalog} {marks : List Entry}

theorem nil : k.Marks [] := ⟨[], none, rfl, List.nodup_nil, nofun⟩

theorem property (h : k.Marks marks) {name : String} (hname : k.properties.contains name)
    (hnew : .property name ∉ marks) : k.Marks (.property name :: marks) := by
  obtain ⟨names, dataType, rfl, hnodup, hall⟩ := h
  have hnew' : name ∉ names := fun hmem => hnew (by simp [hmem])
  exact ⟨name :: names, dataType, rfl, List.nodup_cons.mpr ⟨hnew', hnodup⟩,
    List.forall_mem_cons.mpr ⟨hname, hall⟩⟩

theorem entry {e : Entry} {text : String} (h : k.Defines e text) : k.Marks [e] := by
  cases e with
  | dataType name => exact ⟨[], some name, rfl, List.nodup_nil, nofun⟩
  | property name =>
    have hget : k.properties.get? name = some text := h
    exact nil.property (by simp [Table.contains, hget]) List.not_mem_nil

theorem length_le (h : k.Marks marks) : marks.length ≤ k.properties.size + 1 := by
  obtain ⟨names, dataType, rfl, hnodup, hall⟩ := h
  have hsub : names ⊆ k.properties.keys := fun name hname =>
    (Table.contains_iff_mem_keys _ _).mp (hall name hname)
  have hnames : names.length ≤ k.properties.keys.length :=
    (List.subperm_of_subset hnodup hsub).length_le
  have hone : (dataType.map Entry.dataType).toList.length ≤ 1 := by cases dataType <;> simp
  have hsize : k.properties.keys.length = k.properties.size := List.length_map ..
  rw [List.length_append, List.length_map]
  omega

end Catalog.Marks

theorem Session.Booked.read {k : Catalog} {path : List Entry} {s s' : Session} {e : Entry}
    {text : String} {t : Tree} (h : s.Booked k path) (hpath : e ∉ path)
    (hentry : s.entries.lookup e = none)
    (hread : readTree ⟨e.name, text⟩ (s.enter e) = .ok t s') :
    s'.Booked k (e :: path) ∧ Tree.ofText text = .ok t := by
  have hentered := h.enter hpath (Session.not_mem_of_lookup hentry)
  exact ((Session.Booked.upheld k).readTree_ends hentered _).of_ok hread

/-- What is known of a call that is made while a path is being resolved. -/
structure Frame.Nested (k : Catalog) (path : List Entry) (f : Frame) : Prop where
  booked : f.session.Booked k path
  marks : k.Marks (f.call.marks ++ path)
  allowed : f.call.Allowed k path

namespace Frame

variable {k : Catalog} {path : List Entry} {f g : Frame}

theorem Nested.path_eq (h : f.Nested k path) : f.path = f.call.marks ++ path := by
  rw [Frame.path, h.booked.inProgress]

theorem Nested.confines (h : f.Nested k path) :
    Confines (Session.Booked k path) (fun _ => True) (f.resolve k) := by
  have hupheld := Session.Booked.upheld k
  unfold Frame.resolve
  rw [h.path_eq]
  obtain ⟨call, s⟩ := f
  cases call with
  | node t referrer => exact .map ((hupheld.treeShapes t referrer).imp fun _ _ => trivial)
  | reference name referrer =>
    exact .map ((hupheld.expandProperty path name referrer).imp fun _ _ => trivial)
  | entry e text =>
    obtain ⟨hdef, hpath⟩ := h.allowed
    exact (hupheld.resolveEntry hdef hpath (hupheld.expandProperty _)).imp fun _ _ => trivial

theorem Nested.fresh (h : f.Nested k path) : ∀ e ∈ f.call.marks, e ∉ f.session.inProgress := by
  rw [h.booked.inProgress]
  obtain ⟨call, s⟩ := f
  cases call with
  | node t referrer => exact nofun
  | reference name referrer => exact nofun
  | entry e text =>
    rintro e' (_ | ⟨_, ⟨⟩⟩)
    exact h.allowed.2

/-- The marks of a call are removed again, whether it succeeds or fails. -/
theorem Nested.after (h : f.Nested k path) : (f.after k).Booked k path :=
  h.confines.leaves h.booked

theorem comes_booked {expand : String → String → Resolving Shapes} {referrer : String}
    {ts : List Tree} {t : Tree} {s s' : Session} (h : Tree.Comes k expand referrer ts s t s')
    (hexp : expand = expandProperty k path) (hs : s.Booked k path) : s'.Booked k path := by
  subst hexp
  induction h with
  | here => exact hs
  | later ht _ ih =>
    exact ih ((((Session.Booked.upheld k).treeShapes _ _).ensures hs).of_ok ht)

/-- What is known of a call is known of the calls that it makes. -/
theorem Nested.of_calls (hf : f.Nested k path) (h : f.Calls k g) :
    g.Nested k (f.call.marks ++ path) := by
  cases h with
  | operand hc h =>
    -- The operands before this one have left marks as they were.
    rw [hf.booked.inProgress] at h
    exact ⟨comes_booked h rfl hf.booked, hf.marks, trivial⟩
  | group => exact ⟨hf.booked, hf.marks, trivial⟩
  | multiplied hm => exact ⟨hf.booked, hf.marks, trivial⟩
  | reference => exact ⟨hf.booked, hf.marks, trivial⟩
  | expansion hi hget hp =>
    rw [hf.booked.inProgress] at hp
    exact ⟨hf.booked, hf.marks.property (by simp [Table.contains, hget]) hp, hget, hp⟩
  | definition hentry htext hread =>
    exact ⟨(hf.booked.read hf.allowed.2 hentry hread).1, hf.marks, trivial⟩

/-- Only a reference that is expanded leads to an entry, and then one property less is left. All
other calls go on with a smaller tree. -/
theorem Nested.weight_lt (hf : f.Nested k path) (h : f.Calls k g) : g.weight k < f.weight k := by
  have hg := hf.of_calls h
  unfold Frame.weight
  rw [hf.path_eq, hg.path_eq, Prod.Lex.toLex_lt_toLex]
  cases h with
  | operand hc h =>
    refine .inr ⟨rfl, ?_⟩
    have hlt := List.sizeOf_lt_of_mem h.mem
    simp only [Call.size, Tree.joined.sizeOf_spec]
    omega
  | group =>
    refine .inr ⟨rfl, ?_⟩
    simp only [Call.size, Tree.group.sizeOf_spec]
    omega
  | multiplied hm =>
    refine .inr ⟨rfl, ?_⟩
    simp only [Call.size, Tree.multiplied.sizeOf_spec]
    omega
  | reference =>
    refine .inr ⟨rfl, ?_⟩
    simp only [Call.size, Tree.reference.sizeOf_spec]
    omega
  | expansion hi hget hp =>
    rw [hf.booked.inProgress] at hp
    exact .inl (Catalog.unexpanded_cons_lt hget hp)
  | definition hentry htext hread =>
    have ht := (hf.booked.read hf.allowed.2 hentry hread).2
    refine .inr ⟨rfl, ?_⟩
    simp only [Call.size, ht]
    omega

end Frame

section Coverage

theorem closing_eq_at {α : Type} {x y : Resolving α} {s : Session} (h : x s = y s)
    (entry : Entry) : closing entry x s = closing entry y s := by
  rw [closing, closing, h]

/-- A reference, with the entry that it leads to resolved by `inner`. Whether it closes a cycle is
seen from what the session has marked. -/
def expandOnce (k : Catalog) (inner : Call → Resolving (List Shape)) (name referrer : String) :
    Resolving Shapes :=
  if !k.settings.inlineProperties then return Shapes.any
  else
    match k.properties.get? name with
    | none => widened (.unknownProperty name referrer)
    | some text => do
      if .property name ∈ (← get).inProgress then
        warn (.cyclicProperty name referrer)
        modify (·.openCycle name)
        return Shapes.any
      else Ascending.ofList <$> inner (.entry (.property name) text)

/-- A call, with the calls that it makes resolved by `inner`. -/
def Call.run (k : Catalog) (inner : Call → Resolving (List Shape)) : Call → Resolving (List Shape)
  | node t referrer =>
    (·.toList) <$> t.shapes k (fun name referrer => .ofList <$> inner (.reference name referrer))
      referrer
  | reference name referrer => (·.toList) <$> expandOnce k inner name referrer
  | entry e text =>
    resolveEntry k (fun name referrer => .ofList <$> inner (.reference name referrer)) e text

/-- The references below a call are expanded as they are. -/
def Frame.Agrees (k : Catalog) (expand : String → String → Resolving Shapes) (f : Frame) : Prop :=
  ∀ name referrer s, TransGen (Frame.Calls k) f ⟨.reference name referrer, s⟩ →
    expand name referrer s = expandProperty k s.inProgress name referrer s

variable {k : Catalog} {path : List Entry} {expand : String → String → Resolving Shapes}

theorem Frame.Agrees.of_calls {f g : Frame} (hf : f.Agrees k expand) (h : f.Calls k g) :
    g.Agrees k expand :=
  fun name referrer s hg => hf name referrer s (.head h hg)

theorem shapes_agree_joined {referrer : String} {c : Connective} {operands : List Tree}
    {s : Session} (hs : s.Booked k path) (hc : c ≠ .juxtaposition)
    (h : (Frame.mk (.node (.joined c operands) referrer) s).Agrees k expand)
    (heach : (∀ t s', Tree.Comes k (expandProperty k path) referrer operands s t s' →
        (Frame.mk (.node t referrer) s').Agrees k expand) →
      Tree.shapesEach k expand referrer operands s =
        Tree.shapesEach k (expandProperty k path) referrer operands s) :
    (Tree.joined c operands).shapes k expand referrer s =
      (Tree.joined c operands).shapes k (expandProperty k path) referrer s := by
  rw [Tree.shapes_joined hc, Tree.shapes_joined hc]
  split
  · rfl
  · split
    · next henum =>
      refine map_eq_at (heach fun t s' ht => h.of_calls (.operand henum ?_)) _
      rwa [hs.inProgress]
    · rfl

mutual

theorem shapes_agree {referrer : String} : ∀ {t : Tree} {s : Session}, s.Booked k path →
    (Frame.mk (.node t referrer) s).Agrees k expand →
    t.shapes k expand referrer s = t.shapes k (expandProperty k path) referrer s
  | .keyword text, s, _, _ => by rw [Tree.shapes, Tree.shapes]
  | .symbol text quoted, s, _, _ => by rw [Tree.shapes, Tree.shapes]
  | .number text unit, s, _, _ => by rw [Tree.shapes, Tree.shapes]
  | .reference name range true, s, hs, h => by
    rw [Tree.shapes, Tree.shapes, h name referrer s (.single .reference), hs.inProgress]
  | .reference name range false, s, _, _ => by rw [Tree.shapes, Tree.shapes]
  | .function name arguments, s, _, _ => by rw [Tree.shapes, Tree.shapes]
  | .joined .juxtaposition [], s, _, _ => by rw [Tree.shapes, Tree.shapes]
  | .joined .juxtaposition [t], s, hs, h => by
    rw [Tree.shapes, Tree.shapes]
    exact shapes_agree hs (h.of_calls (.operand rfl .here))
  | .joined .juxtaposition (t :: t' :: ts), s, _, _ => by
    rw [Tree.shapes, Tree.shapes] <;> exact nofun
  | .joined .oneOf operands, s, hs, h =>
    shapes_agree_joined hs (by decide) h (shapesEach_agree hs)
  | .joined .anyOrder operands, s, hs, h =>
    shapes_agree_joined hs (by decide) h (shapesEach_agree hs)
  | .joined .allRequired operands, s, hs, h =>
    shapes_agree_joined hs (by decide) h (shapesEach_agree hs)
  | .group inner true, s, hs, h => by
    rw [Tree.shapes, Tree.shapes]
    exact shapes_agree hs (h.of_calls .group)
  | .group inner false, s, _, _ => by rw [Tree.shapes, Tree.shapes]
  | .multiplied inner m, s, hs, h => by
    rw [Tree.shapes, Tree.shapes]
    split
    · rfl
    · split
      · next hm => exact shapes_agree hs (h.of_calls (.multiplied hm))
      · rfl

theorem shapesEach_agree {referrer : String} : ∀ {ts : List Tree} {s : Session},
    s.Booked k path →
    (∀ t s', Tree.Comes k (expandProperty k path) referrer ts s t s' →
      (Frame.mk (.node t referrer) s').Agrees k expand) →
    Tree.shapesEach k expand referrer ts s =
      Tree.shapesEach k (expandProperty k path) referrer ts s
  | [], s, _, _ => by rw [Tree.shapesEach, Tree.shapesEach]
  | t :: ts, s, hs, h => by
    rw [Tree.shapesEach, Tree.shapesEach]
    refine bind_eq_at (shapes_agree hs (h t s .here)) fun first s₁ ht => ?_
    have hs₁ : s₁.Booked k path := (((Session.Booked.upheld k).treeShapes _ _).ensures hs).of_ok ht
    exact bind_eq_at (shapesEach_agree hs₁ fun u s' hu => h u s' (.later ht hu)) fun _ _ _ => rfl

end

theorem resolveEntry_agree {e : Entry} {text : String} {s : Session} (hs : s.Booked k path)
    (hpath : e ∉ path) (h : (Frame.mk (.entry e text) s).Agrees k expand) :
    resolveEntry k expand e text s = resolveEntry k (expandProperty k (e :: path)) e text s := by
  rw [resolveEntry, resolveEntry]
  refine bind_eq_at rfl ?_
  rintro _ _ ⟨⟩
  cases hentry : s.entries.lookup e with
  | some types => rfl
  | none =>
    -- Only an entry that is remembered in neither way has a tree to be called.
    refine bind_eq_at rfl ?_
    rintro _ _ ⟨⟩
    cases htext : s.texts.lookup text with
    | some types => rfl
    | none =>
      refine bind_eq_at rfl ?_
      rintro _ _ ⟨⟩
      refine bind_eq_at (closing_eq_at ?_ e) fun _ _ _ => rfl
      rw [resolveSource, resolveSource]
      refine bind_eq_at rfl fun t s₁ hread => ?_
      have hs₁ := (hs.read hpath hentry hread).1
      have hnode := h.of_calls (.definition hentry htext hread)
      exact bind_eq_at (shapes_agree hs₁ hnode) fun _ _ _ => rfl

theorem expandOnce_eq {inner : Call → Resolving (List Shape)} {name referrer : String} {s : Session}
    (hs : s.Booked k path)
    (h : ∀ text, (Frame.mk (.reference name referrer) s).Calls k ⟨.entry (.property name) text, s⟩ →
      inner (.entry (.property name) text) s =
        resolveEntry k (expandProperty k (.property name :: path)) (.property name) text s) :
    expandOnce k inner name referrer s = expandProperty k path name referrer s := by
  unfold expandOnce
  by_cases hinline : k.settings.inlineProperties
  · rw [if_neg (by simpa using hinline)]
    cases hget : k.properties.get? name with
    | none => rw [expandProperty_of_unknown hinline hget]
    | some text =>
      rw [expandProperty_of_get? hinline hget]
      refine (get_bind_at _ s).trans ?_
      rw [hs.inProgress]
      split
      · rfl
      · next hp => exact map_eq_at (h text (.expansion hinline hget (hs.inProgress ▸ hp))) _
  · rw [if_pos (by simpa using hinline), expandProperty_of_not_inline hinline]

/-- What a call does is settled by what the calls below it do. -/
theorem Frame.Nested.run_eq {f : Frame} (hf : f.Nested k path)
    {inner : Call → Resolving (List Shape)}
    (h : ∀ g, TransGen (Frame.Calls k) f g → inner g.call g.session = g.resolve k g.session) :
    f.call.run k inner f.session = f.resolve k f.session := by
  have hagrees : f.Agrees k fun name referrer => .ofList <$> inner (.reference name referrer) := by
    intro name referrer s hg
    calc (Ascending.ofList <$> inner (.reference name referrer)) s
        = (Ascending.ofList <$> (·.toList) <$> expandProperty k s.inProgress name referrer) s :=
          map_eq_at (h _ hg) _
      _ = expandProperty k s.inProgress name referrer s := by simp
  unfold Frame.resolve
  rw [hf.path_eq]
  obtain ⟨call, s⟩ := f
  cases call with
  | node t referrer => exact map_eq_at (shapes_agree hf.booked hagrees) _
  | reference name referrer =>
    refine map_eq_at (expandOnce_eq hf.booked fun text hcall => ?_) _
    have hinner := h _ (.single hcall)
    rw [Frame.resolve, Frame.path, hf.booked.inProgress] at hinner
    exact hinner
  | entry e text => exact resolveEntry_agree hf.booked hf.allowed.2 hagrees

end Coverage

end ValueSyntax
