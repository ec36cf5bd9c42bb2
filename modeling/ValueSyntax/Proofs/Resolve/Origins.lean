import ValueSyntax.Proofs.Resolve.Upheld
import ValueSyntax.Proofs.Tree.Names

namespace ValueSyntax

theorem Tree.Warns.unknownDataType {k : Catalog} {t : Tree} {name referrer referrer' : String}
    (h : t.Warns k referrer (.unknownDataType name referrer')) :
    referrer' = referrer ∧ ¬ k.isKnownDataType name ∧ t.Mentions name := by
  generalize hw : Warning.unknownDataType name referrer' = w at h
  induction h with
  | unknown hk =>
    cases hw
    exact ⟨rfl, hk, mentions_reference⟩
  | overflow => cases hw
  | joined _ ht _ ih =>
    obtain ⟨hr, hk, hm⟩ := ih hw
    exact ⟨hr, hk, hm.joined ht⟩
  | group _ ih =>
    obtain ⟨hr, hk, hm⟩ := ih hw
    exact ⟨hr, hk, hm.group⟩
  | multiplied _ _ ih =>
    obtain ⟨hr, hk, hm⟩ := ih hw
    exact ⟨hr, hk, hm.multiplied⟩

/-- The name of the data type comes with the request, or it comes from a definition that has this
name itself and refers to it. -/
inductive Request.Brings (k : Catalog) : Request → String → Prop
  | passed {r : Request} {name : String} (h : r.Passes name) : Brings k r name
  | text {source : Source} {t : Tree} (ht : Tree.ofText source.text = .ok t)
      (h : t.Mentions source.name) : Brings k (.text source) source.name
  | tree {t : Tree} {name : String} (h : t.Mentions name) : Brings k (.tree t name) name
  | entry {r : Request} {entry : Entry} {text : String} {t : Tree} (hdef : k.Defines entry text)
      (ht : Tree.ofText text = .ok t) (h : t.Mentions entry.name) : Brings k r entry.name

/-- A warning about an unknown data type under its own name is given for a name that the request
brings. -/
def Request.Allows (k : Catalog) (r : Request) (w : Warning) : Prop :=
  ∀ name, w = .unknownDataType name name → ¬ k.isKnownDataType name ∧ r.Brings k name

/-- The warnings are the earlier ones and, after them, allowed ones. -/
def AddsOnly (allowed : Warning → Prop) (earlier warnings : List Warning) : Prop :=
  ∃ recorded, warnings = recorded ++ earlier ∧ ∀ w ∈ recorded, allowed w

theorem AddsOnly.refl {allowed : Warning → Prop} {warnings : List Warning} :
    AddsOnly allowed warnings warnings :=
  ⟨[], rfl, nofun⟩

theorem AddsOnly.warn {allowed : Warning → Prop} {earlier warnings : List Warning} {w : Warning}
    (h : AddsOnly allowed earlier warnings) (hw : allowed w) :
    AddsOnly allowed earlier (w :: warnings) := by
  obtain ⟨recorded, rfl, hrecorded⟩ := h
  exact ⟨w :: recorded, rfl, List.forall_mem_cons.mpr ⟨hw, hrecorded⟩⟩

section Requests

variable {k : Catalog} {r : Request} {earlier : List Warning}

theorem Request.allows_of_tree {t : Tree} {referrer : String} {w : Warning}
    (h : t.Warns k referrer w) (hbrings : t.Mentions referrer → r.Brings k referrer) :
    r.Allows k w := by
  rintro name rfl
  obtain ⟨rfl, hk, hm⟩ := h.unknownDataType
  exact ⟨hk, hbrings hm⟩

theorem Request.allows_of_catalog (r : Request) {w : Warning} (h : k.Warns w) : r.Allows k w := by
  cases h with
  | unknownProperty => exact nofun
  | cyclicProperty => exact nofun
  | definition hdef ht h => exact allows_of_tree h (.entry hdef ht)

theorem Kept.adds (k : Catalog) (r : Request) (earlier : List Warning) :
    Kept k (fun path s => s.Midway path ∧ AddsOnly (r.Allows k) earlier s.warnings) (r.Allows k) :=
  .aside k (P := fun _ warnings => AddsOnly (r.Allows k) earlier warnings)
    (fun _ => r.allows_of_catalog) fun _ _ _ hw h => h.warn hw

/-- The data types that a request comes to: known ones and those that it passes. -/
def Request.Touches (k : Catalog) (r : Request) (name : String) : Prop :=
  k.isKnownDataType name ∨ r.Passes name

theorem Listed.touched {types : List Shape} (h : Listed k types) :
    MentionsOnly (r.Touches k) types :=
  fun name hname => Or.inl (h.known name hname)

/-- All that is remembered is right, and the request has given allowed warnings only. -/
def Request.Keeps (k : Catalog) (r : Request) (earlier : List Warning) (s : Session) : Prop :=
  s.Below k ∅ ∧ AddsOnly (r.Allows k) earlier s.warnings

theorem ConfinesTo.of_below {α : Type} {x : Resolving α} {result : α → Prop}
    {fault : Failure → Prop}
    (hx : ∀ s, s.Below k ∅ →
      Ensures x s (fun a s' => s'.Below k ∅ ∧ result a) (Session.Below k ∅))
    (hkept : Confines (fun s => s.Midway [] ∧ AddsOnly (r.Allows k) earlier s.warnings) fault x) :
    ConfinesTo result (r.Keeps k earlier) (fun _ => True) x := by
  rintro s ⟨hbelow, hadds⟩
  have hends := hx s hbelow
  have hconfined := hkept s ⟨hbelow.midway, hadds⟩
  refine .intro (fun a s' ha => ?_) fun e s' he => ?_
  · obtain ⟨hbelow', hresult⟩ := hends.of_ok ha
    exact ⟨⟨hbelow', (hconfined.of_ok ha).2⟩, hresult⟩
  · exact ⟨⟨hends.of_error he, (hconfined.of_error he).1.2⟩, trivial⟩

/-- An unknown data type is only come to if the request passes it. -/
theorem confines_dataTypeShapes {name : String} (hname : r.Touches k name) :
    ConfinesTo (MentionsOnly (r.Touches k)) (r.Keeps k earlier) (fun _ => True)
      (dataTypeShapes k name) := by
  refine .of_below (fun s hs => ?_) ((Kept.adds k r earlier).dataTypeShapes name fun hk => ?_)
  · exact (ensures_dataTypeShapes name hs).imp fun _ _ h =>
      ⟨h.1, (lists_of_dataTypeAfresh r h.2).listed.touched⟩
  · rintro _ ⟨⟩
    exact ⟨hk, .passed (hname.resolve_left hk)⟩

theorem confines_entry {entry : Entry} {text : String} (hdef : k.Defines entry text) :
    ConfinesTo (MentionsOnly (r.Touches k)) (r.Keeps k earlier) (fun _ => True)
      (resolveEntry k (expandProperty k [entry]) entry text) := by
  refine .of_below (fun s hs => ?_) ((Kept.adds k r earlier).entry hdef)
  exact (ensures_entry hdef hs).imp fun _ _ ⟨hs', _, _, hsettled⟩ => ⟨hs', hsettled.listed.touched⟩

theorem confines_textShapes (source : Source) :
    ConfinesTo (MentionsOnly (Request.Touches k (.text source)))
      (Request.Keeps k (.text source) earlier) (fun _ => True) (textShapes k source) := by
  refine .of_below (fun s hs => ?_) ((Kept.adds k _ earlier).textShapes source fun t w ht hw => ?_)
  · exact (ensures_textShapes source hs).imp fun _ _ h =>
      ⟨h.1, (lists_of_sourceAfresh (.text source) h.2).listed.touched⟩
  · exact Request.allows_of_tree hw (.text ht)

theorem confines_treeShapes (t : Tree) (referrer : String) :
    ConfinesTo (MentionsOnly (Request.Touches k (.tree t referrer)))
      (Request.Keeps k (.tree t referrer) earlier) (fun _ => True)
      ((k.settings.finish ·) <$> t.shapes k (expandProperty k []) referrer) := by
  have hwarns (w : Warning) (hw : t.Warns k referrer w) : Request.Allows k (.tree t referrer) w :=
    Request.allows_of_tree hw .tree
  refine .of_below (fun s hs => ?_) (.map ((Kept.adds k _ earlier).treeShapes t referrer hwarns))
  rw [Ensures.map_iff]
  exact (ensures_tree t referrer hs).imp fun _ _ h => ⟨h.1, h.2.2.listed.touched⟩

theorem confines_perform (hr : r ≠ .reset) :
    Confines (r.Keeps k earlier) (fun _ => True) (r.perform k) := by
  refine .perform (fun _ => confines_dataTypeShapes) ?_ (fun _ _ hget => confines_entry hget)
    (fun _ => Or.inr) ?_ (fun h => absurd h hr) ?_ ?_ ?_
  · exact fun s needed name hs => ⟨hs.1.rememberLength, hs.2⟩
  · exact fun name hname => Or.inl (Catalog.isKnownDataType_of_mem_keys hname)
  · rintro source rfl
    exact confines_textShapes source
  · rintro t referrer rfl
    exact confines_treeShapes t referrer
  · rintro source rfl
    have hread : ConfinesTo (fun _ => True) (Request.Keeps k (.parsed source) earlier)
        (fun _ => True) (readTree source) :=
      .of_below (fun s hs => (ensures_readTree hs).imp fun _ _ h => ⟨h.1, trivial⟩)
        ((Kept.adds k _ earlier).readTree source)
    exact hread.confines

end Requests

/-- After any history, the lists of an answer are in canonical order, without repetition, not empty
if any string is to stand in for nothing, and mention known data types only. So a request warns of
an unknown data type under its own name only if it brings the name. -/
theorem listed_of_history (k : Catalog) (history : List Request) :
    (∀ (r : Request) reply s, r.perform k (k.sessionAfter history) = .ok reply s →
      ∀ e ∈ reply.types, Listed k e.2) ∧
    ∀ r : Request, r ≠ .reset → ∃ recorded,
      (r.after k (k.sessionAfter history)).warnings =
        recorded ++ (k.sessionAfter history).warnings ∧
      ∀ name, .unknownDataType name name ∈ recorded →
        ¬ k.isKnownDataType name ∧ r.Brings k name := by
  have hready := ready_sessionAfter k history
  refine ⟨fun r reply s h => listed_of_typesAfresh ((ensures_perform r hready).of_ok h).2.types,
    fun r hr => ?_⟩
  have hbelow := hready.below
  obtain ⟨-, recorded, hrecorded, hallowed⟩ := (confines_perform hr).leaves ⟨hbelow, .refl⟩
  rw [Request.after_eq]
  exact ⟨recorded, hrecorded, fun name hname => hallowed _ hname name rfl⟩

/-- A property that refers to a data type of its own name, which there is not. -/
def misnamed : Catalog where
  dataTypes := .ofList [("size", "<length>")]
  properties := .ofList [("p", "<size> | <p>")]

theorem listed_of_history_on_own_name :
    Returns (resolveProperty misnamed "p") (misnamed.sessionAfter [.dataType "q"])
      (some ⟨[.anyString, .dataType "size"], true⟩) ∧
    Listed misnamed [.anyString, .dataType "size"] ∧
    ((Request.property "p").after misnamed (misnamed.sessionAfter [.dataType "q"])).warnings =
      [.unknownDataType "p" "p", .unknownDataType "q" "q"] ∧
    ¬ misnamed.isKnownDataType "p" ∧ (Request.property "p").Brings misnamed "p" := by
  have hreturns : Returns (resolveProperty misnamed "p") (misnamed.sessionAfter [.dataType "q"])
      (some ⟨[.anyString, .dataType "size"], true⟩) := by decide +kernel
  have hearlier : (misnamed.sessionAfter [.dataType "q"]).warnings =
      [.unknownDataType "q" "q"] := by decide +kernel
  have hafter : ((Request.property "p").after misnamed
      (misnamed.sessionAfter [.dataType "q"])).warnings =
        [.unknownDataType "p" "p", .unknownDataType "q" "q"] := by decide +kernel
  obtain ⟨s, hs⟩ := hreturns
  obtain ⟨hlisted, hwarned⟩ := listed_of_history misnamed [.dataType "q"]
  obtain ⟨recorded, hrecorded, hbrings⟩ := hwarned (.property "p") nofun
  rw [hafter, hearlier] at hrecorded
  have hmem : .unknownDataType "p" "p" ∈ recorded := by
    have : recorded = [.unknownDataType "p" "p"] := List.append_cancel_right hrecorded.symm
    simp [this]
  refine ⟨⟨s, hs⟩, ?_, hafter, hbrings "p" hmem⟩
  exact hlisted (.property "p") _ s (bind_eq_of_ok hs _) _ (List.mem_singleton_self _)

end ValueSyntax
