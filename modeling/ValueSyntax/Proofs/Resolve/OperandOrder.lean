import ValueSyntax.Proofs.Resolve.Failing
import ValueSyntax.Proofs.Resolve.Shuffling

namespace ValueSyntax

open Catalog Relation

variable {k k' : Catalog} {known : String → Prop}

/-- The shapes of a text that are final. -/
def Catalog.Gives (k : Catalog) (text : String) (types : List Shape) : Prop :=
  ∃ t, Tree.ofText text = .ok t ∧ Settled k t types

theorem Catalog.Gives.unique {text : String} {types types' : List Shape} (h : k.Gives text types)
    (h' : k.Gives text types') : types = types' := by
  obtain ⟨t, ht, hs⟩ := h
  obtain ⟨t', ht', hs'⟩ := h'
  cases ht.symm.trans ht'
  exact hs.unique hs'

theorem gives_iff_sourceAfresh {source : Source} {types : List Shape} :
    k.Gives source.text types ↔ sourceAfresh k (propertyAfresh k []) source = .ok types := by
  constructor
  · rintro ⟨t, ht, hs⟩
    exact hs.sourceAfresh ht
  · exact settled_of_sourceAfresh

theorem gives_iff_definitionAfresh {name text : String} {types : List Shape}
    (hget : k.properties.get? name = some text) :
    k.Gives text types ↔ definitionAfresh k name text = .ok types := by
  constructor
  · rintro ⟨t, ht, hs⟩
    exact hs.definitionAfresh hget ht
  · exact settled_of_definitionAfresh hget

namespace Catalog.Shuffled

theorem gives {text text' : String} {types : List Shape} (hk : k.Shuffled k')
    (htext : ShuffledText text text') (h : k.Gives text types) : k'.Gives text' types := by
  obtain ⟨t, ht, hs⟩ := h
  obtain ⟨u, hu, hshuffled⟩ := htext.exists_tree ht
  exact ⟨u, hu, hs.shuffled hk hshuffled⟩

theorem gives_iff {text text' : String} {types : List Shape} (hk : k.Shuffled k')
    (htext : ShuffledText text text') : k.Gives text types ↔ k'.Gives text' types :=
  ⟨hk.gives htext, hk.symm.gives htext.symm⟩

theorem dataTypeAfresh_ok (hk : k.Shuffled k') {name : String} {types : List Shape}
    (h : dataTypeAfresh k name = .ok types) : dataTypeAfresh k' name = .ok types := by
  unfold dataTypeAfresh at h ⊢
  cases hb : Builtin.ofName? name with
  | some builtin => rwa [hb] at h
  | none =>
    rw [hb] at h
    have hrel := hk.dataTypes name
    cases hget : k.dataTypes.get? name with
    | none =>
      rw [hget] at h
      rwa [ShuffledText.eq_none_of_rel hrel hget]
    | some text =>
      obtain ⟨text', hget', htext⟩ := ShuffledText.exists_of_rel hrel hget
      rw [hget] at h
      rw [hget']
      have hgives : k.Gives text types := gives_iff_sourceAfresh.mpr h
      exact gives_iff_sourceAfresh.mp (hk.gives htext hgives)

theorem dataTypeAfresh_iff (hk : k.Shuffled k') {name : String} {types : List Shape} :
    dataTypeAfresh k name = .ok types ↔ dataTypeAfresh k' name = .ok types :=
  ⟨hk.dataTypeAfresh_ok, hk.symm.dataTypeAfresh_ok⟩

theorem lists_eq (hk : k.Shuffled k') : k.Lists = k'.Lists := by
  ext name x
  simp only [Lists, hk.dataTypeAfresh_iff]

theorem mentions_eq (hk : k.Shuffled k') : k.Mentions = k'.Mentions := by
  ext a b
  rw [Mentions, Mentions, hk.lists_eq]

theorem readable_eq (hk : k.Shuffled k') : k.Readable = k'.Readable := by
  ext name
  simp only [Readable, hk.dataTypeAfresh_iff]

theorem barren_eq (hk : k.Shuffled k') : k.Barren = k'.Barren := by
  ext name
  simp only [Barren, hk.mentions_eq, hk.readable_eq, hk.lists_eq]

theorem needsLength_eq (hk : k.Shuffled k') : k.NeedsLength = k'.NeedsLength := by
  ext types
  simp only [NeedsLength, ReachesLength, hk.mentions_eq, hk.lists_eq]

theorem stumbles {visited stack : List String} (hk : k.Shuffled k')
    (h : k.Stumbles known visited stack) : k'.Stumbles known visited stack := by
  induction h with
  | unreadable hn hno h => exact .unreadable hn hno (hk.readable_eq ▸ h)
  | skip hn _ ih => exact .skip hn ih
  | follow hn hno ht hl _ ih => exact .follow hn hno (hk.dataTypeAfresh_ok ht) hl ih

theorem stumblesIn {names : List String} (hk : k.Shuffled k') (h : k.StumblesIn known names) :
    k'.StumblesIn known names := by
  induction names with
  | nil => exact h
  | cons name names ih =>
    rcases h with h | ⟨hb, h⟩
    · exact Or.inl (hk.stumbles h)
    · exact Or.inr ⟨hk.barren_eq ▸ hb, ih h⟩

theorem doomed_iff {types : List Shape} (hk : k.Shuffled k') :
    k.Doomed known (.ok types) ↔ k'.Doomed known (.ok types) :=
  ⟨fun h => ⟨h.1, hk.stumblesIn h.2⟩, fun h => ⟨h.1, hk.symm.stumblesIn h.2⟩⟩

end Catalog.Shuffled

theorem tells_text (source : Source) : Tells k (textShapes k source) (k.Gives source.text) where
  unique _ _ h h' := h.unique h'
  ends known s hs := by
    have hkeeps := ((Kept.lengths k s.lengths).textShapes source) s ⟨hs.ready.midway, rfl⟩
    refine .intro (fun types s₁ hx => ?_) fun e s₁ hx => ?_
    · obtain ⟨hbelow, ht⟩ := (ensures_textShapes source hs.ready.below).of_ok hx
      exact ⟨hs.of_below hbelow (hkeeps.of_ok hx).2, gives_iff_sourceAfresh.mpr ht⟩
    · rintro types ⟨t, ht, hsettled⟩
      exact hsettled.not_faults ht (hkeeps.of_error hx).2

theorem tells_tree (t : Tree) (referrer : String) :
    Tells k ((k.settings.finish ·) <$> t.shapes k (expandProperty k []) referrer)
      (fun types => t.Supplied k ∧ Settled k t types) where
  unique _ _ h h' := h.2.unique h'.2
  ends known s hs := by
    have hkeeps := ((Kept.lengths k s.lengths).treeShapes t referrer) s ⟨hs.ready.midway, rfl⟩
    rw [Ensures.map_iff]
    refine .intro (fun shapes s₁ hx => ?_) fun e s₁ hx => ?_
    · obtain ⟨hbelow, hdone⟩ := (ensures_tree t referrer hs.ready.below).of_ok hx
      exact ⟨hs.of_below hbelow (hkeeps.of_ok hx).2, hdone⟩
    · rintro types ⟨hsupplied, hsettled⟩
      rcases (hkeeps.of_error hx).2 with ⟨c, hlacks, -⟩ | ⟨name, hn, hfaults⟩
      · exact hsupplied.not_lacks hlacks
      · exact hsettled.not_faultsOf hn hfaults

/-- From fresh sessions both computations fail, or they end with the same. -/
def SameAfresh {α : Type} (x y : Resolving α) : Prop :=
  match x {}, y {} with
  | .ok a _, .ok b _ => a = b
  | .error _ _, .error _ _ => True
  | _, _ => False

theorem SameAfresh.map {α β : Type} {x y : Resolving α} (h : SameAfresh x y) (f : α → β) :
    SameAfresh (f <$> x) (f <$> y) := by
  show SameAfresh (EStateM.map f x) (EStateM.map f y)
  unfold SameAfresh EStateM.map at *
  cases hx : x {} <;> cases hy : y {} <;> simp_all

theorem Tells.sameAfresh {x x' : Resolving (List Shape)} {has has' : List Shape → Prop}
    (hk : k.Shuffled k') (h : Tells k x has) (h' : Tells k' x' has')
    (hhas : ∀ types, has types ↔ has' types) :
    SameAfresh (x >>= resolution k) (x' >>= resolution k') := by
  -- The runs visit operands in different orders, so they are compared by what they mean.
  have hx := h.ensures_resolution (.self (Session.Ready.start (k := k)))
  have hx' := h'.ensures_resolution (.self (Session.Ready.start (k := k')))
  unfold SameAfresh
  cases hr : (x >>= resolution k) {} with
  | ok r s =>
    obtain ⟨ht, hright, hno⟩ := hx.of_ok hr
    cases hr' : (x' >>= resolution k') {} with
    | ok r' s' =>
      obtain ⟨ht', hright', -⟩ := hx'.of_ok hr'
      have htypes : r.types = r'.types := h'.unique _ _ ((hhas _).mp ht) ht'
      have hneeds : r.needsLength = r'.needsLength := by
        rw [Bool.eq_iff_iff, hright.needsLength_iff, hright'.needsLength_iff, htypes,
          hk.needsLength_eq]
      show r = r'
      cases r
      cases r'
      simp_all
    | error e s' => exact hno (hk.doomed_iff.mpr (hx'.of_error hr' _ ((hhas _).mp ht)))
  | error e s =>
    cases hr' : (x' >>= resolution k') {} with
    | ok r' s' =>
      obtain ⟨ht', -, hno'⟩ := hx'.of_ok hr'
      exact hno' (hk.doomed_iff.mp (hx.of_error hr _ ((hhas _).mpr ht')))
    | error e' s' => trivial

/-- Requests for the same name, or for definitions that differ in the order of operands. -/
inductive Request.Shuffled : Request → Request → Prop
  | property (name : String) : Shuffled (.property name) (.property name)
  | dataType (name : String) : Shuffled (.dataType name) (.dataType name)
  | text {source source' : Source} (h : ShuffledText source.text source'.text) :
      Shuffled (.text source) (.text source')
  | tree (referrer referrer' : String) {t u : Tree} (h : t.Shuffled u) :
      Shuffled (.tree t referrer) (.tree u referrer')

theorem perform_property (name : String) :
    (Request.property name).perform k =
      (fun found => found.elim .unknown Reply.resolved) <$> resolveProperty k name := by
  rw [Request.perform, map_eq_pure_bind]
  congr 1
  funext found
  cases found <;> rfl

theorem SameAfresh.resolveProperty (hk : k.Shuffled k') (name : String) :
    SameAfresh (resolveProperty k name) (ValueSyntax.resolveProperty k' name) := by
  have hrel := hk.properties name
  cases hget : k.properties.get? name with
  | none =>
    have hget' := ShuffledText.eq_none_of_rel hrel hget
    rw [ValueSyntax.resolveProperty, ValueSyntax.resolveProperty, hget, hget']
    rfl
  | some text =>
    obtain ⟨text', hget', htext⟩ := ShuffledText.exists_of_rel hrel hget
    rw [resolveProperty_of_get? hget, resolveProperty_of_get? hget']
    refine (Tells.sameAfresh hk (tells_property hget) (tells_property hget') fun types => ?_).map _
    rw [← gives_iff_definitionAfresh hget, ← gives_iff_definitionAfresh hget']
    exact hk.gives_iff htext

/-- The order of operands is irrelevant: with the operands of `|`, `||` and `&&` permuted anywhere,
in the definition that is resolved and in all definitions of the catalog, resolution in a fresh
session fails as before, or gives the same types and the same need of the length. -/
theorem operand_order_is_irrelevant {r r' : Request} (hk : k.Shuffled k') (hr : r.Shuffled r') :
    SameAfresh (r.perform k) (r'.perform k') := by
  cases hr with
  | property name =>
    rw [perform_property, perform_property]
    exact (SameAfresh.resolveProperty hk name).map _
  | dataType name =>
    have htypes : ∀ types, dataTypeAfresh k name = .ok types ↔ dataTypeAfresh k' name = .ok types :=
      fun _ => hk.dataTypeAfresh_iff
    exact (Tells.sameAfresh hk (tells_dataType name) (tells_dataType name) htypes).map Reply.resolved
  | @text source source' h =>
    have htypes : ∀ types, k.Gives source.text types ↔ k'.Gives source'.text types :=
      fun _ => hk.gives_iff h
    exact (Tells.sameAfresh hk (tells_text source) (tells_text source') htypes).map Reply.resolved
  | tree referrer referrer' h =>
    rw [Request.perform, Request.perform, resolveTree_eq, resolveTree_eq]
    refine (Tells.sameAfresh hk (tells_tree _ _) (tells_tree _ _) fun types => ?_).map Reply.resolved
    rw [h.supplied_iff hk]
    exact and_congr_right fun _ => ⟨.shuffled hk h, .shuffled hk.symm h.symm⟩

/-- Two properties that refer to each other, one of them through a connective whose orders are
enumerated, and a data type that mentions itself. -/
def crossed : Catalog where
  dataTypes := .ofList [("d", "a | <d>")]
  properties := .ofList [("p", "<'q'> | a"), ("q", "<d> || <'p'>")]

def crossedOver : Catalog where
  dataTypes := .ofList [("d", "<d> | a")]
  properties := .ofList [("p", "a | <'q'>"), ("q", "<'p'> || <d>")]

theorem crossed_shuffled : crossed.Shuffled crossedOver := by
  have swapped {text text' : String} {c : Connective} {t u : Tree} (hc : c ≠ .juxtaposition)
      (ht : Tree.ofText text = .ok (.joined c [t, u]))
      (hu : Tree.ofText text' = .ok (.joined c [u, t])) : ShuffledText text text' :=
    Or.inr ⟨_, _, ht, hu, .of_perm hc (.swap ..)⟩
  have hd : ShuffledText "a | <d>" "<d> | a" :=
    @swapped _ _ .oneOf (.keyword "a") (.reference "d" none false) (by decide) (by decide +kernel) (by decide +kernel)
  have hp : ShuffledText "<'q'> | a" "a | <'q'>" :=
    @swapped _ _ .oneOf (.reference "q" none true) (.keyword "a") (by decide) (by decide +kernel) (by decide +kernel)
  have hq : ShuffledText "<d> || <'p'>" "<'p'> || <d>" :=
    @swapped _ _ .anyOrder (.reference "d" none false) (.reference "p" none true) (by decide)
      (by decide +kernel) (by decide +kernel)
  exact ⟨rfl, ShuffledText.rel_get? (.cons ⟨rfl, hd⟩ .nil),
    ShuffledText.rel_get? (.cons ⟨rfl, hp⟩ (.cons ⟨rfl, hq⟩ .nil))⟩

theorem operand_order_is_irrelevant_on_cycle :
    crossed.Shuffled crossedOver ∧ (Request.property "p").Shuffled (.property "p") ∧
    ¬ Fails ((Request.property "p").perform crossed) {} ∧
    SameAfresh ((Request.property "p").perform crossed)
      ((Request.property "p").perform crossedOver) := by
  have hr : (Request.property "p").Shuffled (.property "p") := .property "p"
  exact ⟨crossed_shuffled, hr, by decide +kernel, operand_order_is_irrelevant crossed_shuffled hr⟩

end ValueSyntax
