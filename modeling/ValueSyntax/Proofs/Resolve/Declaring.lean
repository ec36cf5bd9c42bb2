import ValueSyntax.Proofs.Resolve.Reach

namespace ValueSyntax

open Ascending Relation

variable {k : Catalog} {x : Shape} {name : String} {generics : List Generic} {builtin : Builtin}

namespace Declared

/-- The length itself, or an alias with a parameter. -/
def TakesLength : Declared → Prop
  | length => True
  | named _ generics => generics ≠ []
  | _ => False

def aliasName? : Declared → Option String
  | named name _ => some name
  | _ => none

end Declared

namespace Catalog

open Classical in
/-- The parameters of an alias. -/
noncomputable def parameters (k : Catalog) (name : String) : List Generic :=
  if k.ReachesLength name then [.length] else []

/-- The declaration of a shape. A data type that needs no definition is written out, any other one
becomes an alias. -/
noncomputable def declaration (k : Catalog) : Shape → Declared
  | .literal text => .literal text
  | .integer value => .integer value
  | .anyString => .anyString
  | .anyNumber => .anyNumber
  | .length => .length
  | .dataType name =>
    match Builtin.ofName? name with
    | some builtin => builtin.declared
    | none => .named name (k.parameters name)

/-- The declarations of shapes, each of them once and in order. -/
noncomputable def declarations (k : Catalog) (types : List Shape) : Ascending Declared :=
  ofList (types.map k.declaration)

theorem parameters_eq {needed : Bool} (h : needed = true ↔ k.ReachesLength name) :
    k.parameters name = if needed then [.length] else [] := by
  cases needed with
  | true => exact if_pos (h.mp rfl)
  | false => exact if_neg fun hreach => nomatch h.mpr hreach

theorem declaration_of_builtin (h : Builtin.ofName? name = some builtin) :
    k.declaration (.dataType name) = builtin.declared := by
  rw [declaration, h]

theorem declaration_of_defined (h : Builtin.ofName? name = none) :
    k.declaration (.dataType name) = .named name (k.parameters name) := by
  rw [declaration, h]

theorem eq_dataType_of_declaration (h : k.declaration x = .named name generics) :
    x = .dataType name ∧ Builtin.ofName? name = none ∧ generics = k.parameters name := by
  cases x with
  | dataType m =>
    cases hb : Builtin.ofName? m with
    | some builtin =>
      rw [declaration_of_builtin hb] at h
      cases builtin <;> cases h
    | none =>
      rw [declaration_of_defined hb] at h
      cases h
      exact ⟨rfl, hb, rfl⟩
  | _ => cases h

theorem eq_of_declaration_eq_named (h : k.declaration x = .named name generics) :
    Builtin.ofName? name = none ∧ generics = k.parameters name :=
  (eq_dataType_of_declaration h).2

theorem reachesLength_iff_of_builtin (h : Builtin.ofName? name = some builtin) :
    k.ReachesLength name ↔ builtin = .length := by
  have ht : dataTypeAfresh k name = .ok [builtin.shape] := by
    rw [dataTypeAfresh, h]
    rfl
  have hlength : k.Lists name .length ↔ builtin = .length := by
    rw [Lists.iff_mem ht]
    cases builtin <;> simp [Builtin.shape]
  constructor
  · rintro ⟨m, hm, hlists⟩
    rcases ReflTransGen.cases_head hm with rfl | ⟨b, hb, -⟩
    · exact hlength.mp hlists
    · have hmem := (Lists.iff_mem ht).mp hb
      cases builtin <;> simp [Builtin.shape] at hmem
  · exact fun hb => .of_lists (hlength.mpr hb)

theorem takesLength_declaration_iff :
    (k.declaration x).TakesLength ↔
      x = .length ∨ ∃ name, x = .dataType name ∧ k.ReachesLength name := by
  cases x with
  | dataType m =>
    have hright : (Shape.dataType m = .length ∨
        ∃ name, Shape.dataType m = .dataType name ∧ k.ReachesLength name) ↔ k.ReachesLength m := by
      simp
    rw [hright]
    cases hb : Builtin.ofName? m with
    | some builtin =>
      rw [declaration_of_builtin hb, reachesLength_iff_of_builtin hb]
      cases builtin <;> simp [Builtin.declared, Declared.TakesLength]
    | none =>
      rw [declaration_of_defined hb]
      simp [Declared.TakesLength, parameters]
  | _ => simp [declaration, Declared.TakesLength]

variable {types types' : List Shape}

theorem mem_declarations {d : Declared} :
    d ∈ (k.declarations types).toList ↔ ∃ x ∈ types, k.declaration x = d := by
  rw [← mem_def, declarations, mem_ofList, List.mem_map]

/-- Declarations and shapes agree about the length. -/
theorem needsLength_iff_takesLength :
    k.NeedsLength types ↔ ∃ d ∈ (k.declarations types).toList, d.TakesLength := by
  constructor
  · rintro (hlength | ⟨name, hname, hreach⟩)
    · exact ⟨_, mem_declarations.mpr ⟨_, hlength, rfl⟩,
        takesLength_declaration_iff.mpr (Or.inl rfl)⟩
    · exact ⟨_, mem_declarations.mpr ⟨_, hname, rfl⟩,
        takesLength_declaration_iff.mpr (Or.inr ⟨name, rfl, hreach⟩)⟩
  · rintro ⟨d, hd, htakes⟩
    obtain ⟨x, hx, rfl⟩ := mem_declarations.mp hd
    rcases takesLength_declaration_iff.mp htakes with rfl | ⟨name, rfl, hreach⟩
    · exact Or.inl hx
    · exact Or.inr ⟨name, hx, hreach⟩

/-- Aliases of one name have the same parameters, and so they are one declaration. -/
theorem nodup_aliasNames :
    ((k.declarations types).toList.filterMap Declared.aliasName?).Nodup := by
  have halias : ∀ d ∈ (k.declarations types).toList, ∀ name, d.aliasName? = some name →
      d = .named name (k.parameters name) := by
    intro d hd name hname
    obtain ⟨x, hx, hdecl⟩ := mem_declarations.mp hd
    cases d with
    | named m generics =>
      cases hname
      rw [(eq_of_declaration_eq_named hdecl).2]
    | _ => cases hname
  refine List.pairwise_filterMap.mpr ((k.declarations types).ascending.imp_of_mem ?_)
  rintro d d' hd hd' hlt name hname _ hname' rfl
  have heq : d = d' := (halias d hd name hname).trans (halias d' hd' name hname').symm
  simp [heq, Std.ReflCmp.compare_self] at hlt

theorem declarations_congr (h : ∀ x, x ∈ types ↔ x ∈ types') :
    k.declarations types = k.declarations types' := by
  apply ext_mem
  intro d
  simp only [mem_def, mem_declarations, h]

end Catalog

theorem ensures_declare {s : Session} (x : Shape) (hs : s.Ready k) :
    Ensures (declare k x) s (fun d s' => s'.Ready k ∧ d = k.declaration x) (Session.Ready k) := by
  unfold declare
  split
  iterate 5 exact ⟨hs, rfl⟩
  next name =>
  split
  · next hb => exact ⟨hs, (Catalog.declaration_of_builtin hb).symm⟩
  · next hb =>
    rw [Ensures.bind_iff]
    apply (ensures_dataTypeNeedsLength hs).imp
    rintro needed s' ⟨hs', hneeded⟩
    refine ⟨hs', ?_⟩
    rw [Catalog.declaration_of_defined hb, Catalog.parameters_eq hneeded]

theorem ensures_normalize {s : Session} (types : List Shape) (hs : s.Ready k) :
    Ensures (normalize k types) s
      (fun declared s' => s'.Ready k ∧ declared = (k.declarations types).toList)
      (Session.Ready k) := by
  rw [normalize, Ensures.bind_iff]
  apply (Ensures.mapM (fun x _ hs => ensures_declare x hs) types s hs).imp
  rintro _ s' ⟨hs', rfl⟩
  exact ⟨hs', rfl⟩

end ValueSyntax
