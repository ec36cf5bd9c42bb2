import ValueSyntax.Proofs.Resolve.History
import ValueSyntax.Proofs.Resolve.Listed

namespace ValueSyntax

/-- A confined computation whose results are as told. -/
def ConfinesTo {α : Type} (result : α → Prop) (inv : Session → Prop) (fault : Failure → Prop)
    (x : Resolving α) : Prop :=
  ∀ s, inv s → Ends x s (fun a s' => inv s' ∧ result a) fun e s' => inv s' ∧ fault e

section

variable {α β : Type} {result : β → Prop} {inv : Session → Prop} {fault fault' : Failure → Prop}
  {x : Resolving β}

theorem ConfinesTo.imp (h : ConfinesTo result inv fault x) (hf : ∀ e, fault e → fault' e) :
    ConfinesTo result inv fault' x :=
  fun s hs => (h s hs).mono (fun _ _ hs' => hs') fun e _ h => ⟨h.1, hf e h.2⟩

theorem ConfinesTo.confines (h : ConfinesTo result inv fault x) : Confines inv fault x :=
  fun s hs => (h s hs).mono (fun _ _ h => h.1) fun _ _ h => h

theorem ConfinesTo.bind {f : β → Resolving α} (hx : ConfinesTo result inv fault x)
    (hf : ∀ b, result b → Confines inv fault (f b)) : Confines inv fault (x >>= f) := by
  intro s hs
  rw [Ends.bind_iff]
  exact (hx s hs).mono (fun b s' h => hf b h.2 s' h.1) fun _ _ h => h

theorem Confines.unnamed {x : Resolving (List Shape)} (h : Confines inv fault x) :
    ConfinesTo (MentionsOnly fun _ => True) inv fault x :=
  fun s hs => (h s hs).mono (fun _ _ hs' => ⟨hs', fun _ _ => trivial⟩) fun _ _ h => h

end

inductive Request.Passes : Request → String → Prop
  | dataType (name : String) : Passes (.dataType name) name
  | dataTypeNeedsLength (name : String) : Passes (.dataTypeNeedsLength name) name
  | needsLength {types : List Shape} {name : String} (h : .dataType name ∈ types) :
      Passes (.needsLength types) name
  | normalize {types : List Shape} {name : String} (h : .dataType name ∈ types) :
      Passes (.normalize types) name

theorem resolveTree_eq (k : Catalog) (t : Tree) (referrer : String) :
    resolveTree k t referrer =
      ((k.settings.finish ·) <$> t.shapes k (expandProperty k []) referrer) >>= resolution k := by
  rw [resolveTree, bind_map_left]

namespace Confines

variable {k : Catalog} {inv : Session → Prop} {fault : Failure → Prop} {names : String → Prop}
  (hdata : ∀ name, names name →
    ConfinesTo (MentionsOnly names) inv fault (ValueSyntax.dataTypeShapes k name))
include hdata

theorem throughStack {seen : List String}
    {follow : ∀ visited, unseen k.dataTypes.keys visited < unseen k.dataTypes.keys seen →
      List String → Resolving (Bool × List String)}
    (hfollow : ∀ visited hlt stack, (∀ name ∈ stack, names name) →
      Confines inv fault (follow visited hlt stack)) :
    ∀ visited hle stack, (∀ name ∈ stack, names name) →
      Confines inv fault (throughStack k seen follow visited hle stack)
  | _, _, [], _ => .pure _
  | visited, hle, name :: stack, h => by
    obtain ⟨hname, hstack⟩ := List.forall_mem_cons.mp h
    rw [ValueSyntax.throughStack]
    split
    · exact throughStack hfollow _ _ stack hstack
    · refine .get_bind fun s => ?_
      split
      · exact .pure _
      · exact throughStack hfollow _ _ stack hstack
      · refine (hdata name hname).bind fun types htypes => ?_
        split
        · exact .pure _
        · split
          · refine hfollow _ _ _ fun n hn => ?_
            rcases List.mem_append.mp hn with hn | hn
            · exact htypes n (mem_dataTypeNames.mp (List.mem_reverse.mp hn))
            · exact hstack n hn
          · exact throughStack hfollow _ _ stack hstack

theorem searchLength (visited stack : List String) (h : ∀ name ∈ stack, names name) :
    Confines inv fault (searchLength k visited stack) := by
  rw [ValueSyntax.searchLength]
  exact throughStack hdata (fun visited _ stack => searchLength visited stack) _ _ _ h
termination_by unseen k.dataTypes.keys visited

variable (hlength : ∀ s needed name, inv s → inv (s.rememberLength needed name))
include hlength

theorem dataTypeNeedsLength {name : String} (hname : names name) :
    Confines inv fault (dataTypeNeedsLength k name) := by
  have heach : ∀ (names : List String) s, inv s →
      inv (names.foldl (Session.rememberLength false) s) := by
    intro names
    induction names with
    | nil => exact fun _ hs => hs
    | cons name names ih => exact fun s hs => ih _ (hlength s false name hs)
  refine .get_bind fun s => ?_
  split
  · exact .pure _
  · refine .bind (searchLength hdata _ _ (by simpa using hname)) fun (found, visited) => ?_
    dsimp only
    split
    · exact .bind (.modify fun s => hlength s _ _) fun _ => .pure _
    · exact .bind (.modify (heach visited)) fun _ => .pure _

theorem anyNeedsLength : ∀ l : List String, (∀ name ∈ l, names name) →
    Confines inv fault (anyNeedsLength k l)
  | [], _ => .pure _
  | name :: l, h => by
    obtain ⟨hname, hl⟩ := List.forall_mem_cons.mp h
    refine .bind (dataTypeNeedsLength hdata hlength hname) fun needed => ?_
    split
    · exact .pure _
    · exact anyNeedsLength l hl

theorem needsLength {types : List Shape} (h : MentionsOnly names types) :
    Confines inv fault (needsLength k types) := by
  unfold ValueSyntax.needsLength
  split
  · exact .pure _
  · exact anyNeedsLength hdata hlength _ fun name hn => h name (mem_dataTypeNames.mp hn)

theorem resolution {types : List Shape} (h : MentionsOnly names types) :
    Confines inv fault (resolution k types) :=
  .bind (needsLength hdata hlength h) fun _ => .pure _

theorem declare {x : Shape} (h : ∀ name, x = .dataType name → names name) :
    Confines inv fault (declare k x) := by
  unfold ValueSyntax.declare
  split
  iterate 5 exact .pure _
  split
  · exact .pure _
  · exact .bind (dataTypeNeedsLength hdata hlength (h _ rfl)) fun _ => .pure _

theorem normalize {types : List Shape} (h : MentionsOnly names types) :
    Confines inv fault (normalize k types) :=
  .bind (.mapM types fun _ hx => declare hdata hlength fun name he => h name (he ▸ hx))
    fun _ => .pure _

theorem resolveDataType {name : String} (h : names name) :
    Confines inv fault (resolveDataType k name) :=
  (hdata name h).bind fun _ htypes => resolution hdata hlength htypes

theorem resolveDataTypes : ∀ l : List String, (∀ name ∈ l, names name) →
    Confines inv fault (resolveDataTypes k l)
  | [], _ => .pure _
  | name :: l, h => by
    obtain ⟨hname, hl⟩ := List.forall_mem_cons.mp h
    exact .bind (resolveDataType hdata hlength hname) fun _ =>
      .bind (resolveDataTypes l hl) fun _ => .pure _

variable (hentry : ∀ name text, k.properties.get? name = some text →
  ConfinesTo (MentionsOnly names) inv fault
    (resolveEntry k (expandProperty k [.property name]) (.property name) text))
include hentry

theorem resolveProperty (name : String) : Confines inv fault (resolveProperty k name) := by
  unfold ValueSyntax.resolveProperty
  split
  · exact .pure _
  · next text hget =>
    exact (hentry name text hget).bind fun _ htypes => .map (resolution hdata hlength htypes)

theorem resolveProperties :
    ∀ names : List String, Confines inv fault (resolveProperties k names)
  | [] => .pure _
  | name :: names =>
    .bind (resolveProperty hdata hlength hentry name) fun _ =>
      .bind (resolveProperties names) fun _ => .pure _

/-- A request is made of resolutions of entries and of what it hands over itself. -/
theorem perform {r : Request} (hpasses : ∀ name, r.Passes name → names name)
    (hkeys : ∀ name ∈ k.dataTypes.keys, names name) (hstart : r = .reset → inv {})
    (htext : ∀ source, r = .text source → ConfinesTo (MentionsOnly names) inv fault
      (ValueSyntax.textShapes k source))
    (htree : ∀ t referrer, r = .tree t referrer → ConfinesTo (MentionsOnly names) inv fault
      ((k.settings.finish ·) <$> t.shapes k (expandProperty k []) referrer))
    (hparsed : ∀ source, r = .parsed source → Confines inv fault (readTree source)) :
    Confines inv fault (r.perform k) := by
  cases r with
  | property name =>
    refine .bind (resolveProperty hdata hlength hentry name) fun found => ?_
    cases found <;> exact .pure _
  | dataType name => exact .map (resolveDataType hdata hlength (hpasses name (.dataType name)))
  | text source =>
    exact .map ((htext source rfl).bind fun _ htypes => resolution hdata hlength htypes)
  | tree t referrer =>
    rw [Request.perform, resolveTree_eq]
    exact .map ((htree t referrer rfl).bind fun _ htypes => resolution hdata hlength htypes)
  | parsed source => exact .map (hparsed source rfl)
  | allProperties => exact .map (resolveProperties hdata hlength hentry _)
  | allDataTypes => exact .map (resolveDataTypes hdata hlength _ hkeys)
  | needsLength types =>
    exact .map (needsLength hdata hlength fun name hn => hpasses name (.needsLength hn))
  | dataTypeNeedsLength name =>
    exact .map (dataTypeNeedsLength hdata hlength (hpasses name (.dataTypeNeedsLength name)))
  | normalize types =>
    exact .map (normalize hdata hlength fun name hn => hpasses name (.normalize hn))
  | reset => exact .bind (fun _ _ => hstart rfl) fun _ => .pure _

end Confines

/-- A property of sessions that every step of a request keeps. -/
structure Upheld (k : Catalog) (inv : List Entry → Session → Prop) : Prop extends Kept k inv where
  rememberLength : ∀ s needed name, inv [] s → inv [] (s.rememberLength needed name)

/-- What a request can fail with: an entry of the catalog that cannot be read, or what has been
handed over with the request. -/
inductive Request.Fault (k : Catalog) : Request → Failure → Prop
  | entry {r : Request} {e : Failure} (h : k.EntryFault e) : Fault k r e
  | text {source : Source} {e : Failure} (h : source.tree = .error e) : Fault k (.text source) e
  | parsed {source : Source} {e : Failure} (h : source.tree = .error e) :
      Fault k (.parsed source) e
  | tree {t : Tree} {referrer : String} {c : Connective} (h : t.Lacks k c) :
      Fault k (.tree t referrer) (withoutOperands c referrer)

namespace Upheld

variable {k : Catalog} {inv : List Entry → Session → Prop}

theorem property (h : Upheld k inv) (name text : String)
    (hget : k.properties.get? name = some text) :
    ConfinesTo (MentionsOnly fun _ => True) (inv []) k.EntryFault
      (resolveEntry k (expandProperty k [.property name]) (.property name) text) := by
  have hdef : k.Defines (.property name) text := hget
  exact ((h.entry hdef).imp fun _ he => .of_faults hdef he).unnamed

theorem dataType (h : Upheld k inv) (name : String) (_ : True) :
    ConfinesTo (MentionsOnly fun _ => True) (inv []) k.EntryFault (dataTypeShapes k name) :=
  ((h.dataTypeShapes name).imp fun _ ⟨_, hdef, he⟩ => .of_faults hdef he).unnamed

theorem resolution (h : Upheld k inv) (types : List Shape) :
    Confines (inv []) k.EntryFault (resolution k types) :=
  .resolution h.dataType h.rememberLength fun _ _ => trivial

theorem dataTypeNeedsLength (h : Upheld k inv) (name : String) :
    Confines (inv []) k.EntryFault (dataTypeNeedsLength k name) :=
  .dataTypeNeedsLength h.dataType h.rememberLength trivial

theorem resolveText (h : Upheld k inv) (source : Source) :
    Confines (inv []) (fun e => source.tree = .error e ∨ k.EntryFault e) (resolveText k source) :=
  .bind ((h.textShapes source).imp fun _ he => he.own_or_entry) fun types =>
    (h.resolution types).imp fun _ => Or.inr

theorem resolveProperties (h : Upheld k inv) (names : List String) :
    Confines (inv []) k.EntryFault (resolveProperties k names) :=
  .resolveProperties h.dataType h.rememberLength h.property names

theorem resolveDataTypes (h : Upheld k inv) (names : List String) :
    Confines (inv []) k.EntryFault (resolveDataTypes k names) :=
  .resolveDataTypes h.dataType h.rememberLength names fun _ _ => trivial

theorem normalize (h : Upheld k inv) (types : List Shape) :
    Confines (inv []) k.EntryFault (normalize k types) :=
  .normalize h.dataType h.rememberLength fun _ _ => trivial

theorem perform (h : Upheld k inv) (r : Request) (hstart : r = .reset → inv [] {}) :
    Confines (inv []) (r.Fault k) (r.perform k) := by
  refine .perform (fun name _ => (h.dataType name trivial).imp fun _ => .entry) h.rememberLength
    (fun name text hget => (h.property name text hget).imp fun _ => .entry)
    (fun _ _ => trivial) (fun _ _ => trivial) hstart ?_ ?_ ?_
  · rintro source rfl
    exact (h.textShapes source).unnamed.imp fun _ he => he.own_or_entry.elim .text .entry
  · rintro t referrer rfl
    refine (Confines.map (h.treeShapes t referrer)).unnamed.imp ?_
    rintro e (⟨c, hc, rfl⟩ | ⟨_, _, he⟩)
    · exact .tree hc
    · exact .entry he.entryFault
  · rintro source rfl
    exact (h.readTree source).imp fun _ => .parsed

theorem after (h : Upheld k inv) {s : Session} (hs : inv [] s) {r : Request}
    (hstart : r = .reset → inv [] {}) : inv [] (r.after k s) := by
  rw [Request.after_eq]
  exact (h.perform r hstart).leaves hs

theorem sessionAfter (h : Upheld k inv) (start : inv [] {}) (history : List Request) :
    inv [] (k.sessionAfter history) :=
  k.sessionAfter_induction start (fun _ _ hs => h.after hs fun _ => start) history

end Upheld

end ValueSyntax
