import SelectionModel.Proofs.Schema.Loading

/-!
# Extensions of types

An extension is a type of its kind without a place of its own: its parts are appended to
those of the type it names. Extensions keep names and kinds, so whether one fits depends on
the definitions alone, and those of a type gather behind it wherever they were written.

* `TypeDefinition.extended`: a type with all of its extensions.
* `applyExtension_eq_ok`, `applyExtension_eq_error`: one extension.
* `extendAll_eq_ok`, `extendAll_eq_error`: **extensions in load order.**
* `extensions_folded`: **loading and building fold the extensions into their types.**
-/

namespace SelectionModel

/-! ## Bodies -/

/-- The kinds of types. -/
inductive TypeKind where
  | scalar
  | object
  | interface
  | union
  | enum
  | inputObject
  deriving DecidableEq, Repr

namespace TypeBody

def kind : TypeBody → TypeKind
  | .scalar => .scalar
  | .object _ _ => .object
  | .interface _ _ => .interface
  | .union _ => .union
  | .enum _ => .enum
  | .inputObject _ => .inputObject

/-- The members of a union. -/
def members : TypeBody → List String
  | .union ms => ms
  | _ => []

/-- The values of an enum. -/
def enumValues : TypeBody → List String
  | .enum vs => vs
  | _ => []

/-- The fields of an input object. -/
def inputFields : TypeBody → List InputValueDefinition
  | .inputObject fs => fs
  | _ => []

/-- **A body with the parts of others appended**, each to those of its sort. -/
def appended (b : TypeBody) (others : List TypeBody) : TypeBody :=
  match b with
  | .scalar => .scalar
  | .object is fs => .object (is ++ others.flatMap implements) (fs ++ others.flatMap fields)
  | .interface is fs => .interface (is ++ others.flatMap implements) (fs ++ others.flatMap fields)
  | .union ms => .union (ms ++ others.flatMap members)
  | .enum vs => .enum (vs ++ others.flatMap enumValues)
  | .inputObject fs => .inputObject (fs ++ others.flatMap inputFields)

variable {b b' c : TypeBody} {others more : List TypeBody}

@[simp] theorem kind_appended : (b.appended others).kind = b.kind := by
  cases b <;> rfl

@[simp] theorem appended_nil : b.appended [] = b := by
  cases b <;> simp [appended]

theorem appended_append : b.appended (others ++ more) = (b.appended others).appended more := by
  cases b <;> simp [appended]

/-- **One body extends another one of its kind**, and then its parts are appended. -/
theorem extend?_eq_some : b.extend? b' = some c ↔ b.kind = b'.kind ∧ c = b.appended [b'] := by
  cases b <;> cases b' <;>
    simp [extend?, kind, appended, implements, fields, members, enumValues, inputFields, eq_comm]

theorem extend?_eq_none : b.extend? b' = none ↔ b.kind ≠ b'.kind := by
  cases b <;> cases b' <;> simp [extend?, kind]

end TypeBody

/-! ## Types -/

namespace TypeDefinition

variable {t : TypeDefinition} {e : TypeExtension} {es es' : List TypeExtension}

/-- **A type with its extensions**: the parts of those that name it stand behind its own, in
their order. -/
def extended (t : TypeDefinition) (es : List TypeExtension) : TypeDefinition :=
  let own := es.filter fun e => e.name = t.name
  { t with
    directives := t.directives ++ own.flatMap (·.directives)
    body := t.body.appended (own.map (·.body)) }

@[simp] theorem name_extended : (t.extended es).name = t.name := rfl

@[simp] theorem kind_extended : (t.extended es).body.kind = t.body.kind :=
  TypeBody.kind_appended

@[simp] theorem extended_nil : t.extended [] = t := by
  simp [extended]

theorem extended_append : t.extended (es ++ es') = (t.extended es).extended es' := by
  simp only [extended, List.filter_append, List.flatMap_append, List.map_append,
    List.append_assoc, TypeBody.appended_append]
  rfl

/-- Extensions of other types change nothing. -/
theorem extended_of_ne (h : t.name ≠ e.name) : t.extended [e] = t := by
  simp [extended, Ne.symm h]

/-- **An extension of its own kind**, and only one, is appended to a type. -/
theorem extend?_eq_some {u : TypeDefinition} (h : t.name = e.name) :
    t.extend? e = some u ↔ t.body.kind = e.body.kind ∧ u = t.extended [e] := by
  have hown : ([e].filter fun e => decide (e.name = t.name)) = [e] := by simp [h]
  rw [extend?, Option.map_eq_some_iff, extended, hown]
  constructor
  · rintro ⟨body, hb, rfl⟩
    obtain ⟨hk, rfl⟩ := TypeBody.extend?_eq_some.1 hb
    exact ⟨hk, by simp⟩
  · rintro ⟨hk, rfl⟩
    exact ⟨_, TypeBody.extend?_eq_some.2 ⟨hk, rfl⟩, by simp⟩

theorem extend?_eq_none : t.extend? e = none ↔ t.body.kind ≠ e.body.kind := by
  rw [extend?, Option.map_eq_none_iff, TypeBody.extend?_eq_none]

end TypeDefinition

/-! ## One extension -/

section Step

variable {types types' : List TypeDefinition} {e : LocatedExtension} {err : SchemaError}

/-- **An extension fits** some types if it names one of its own kind. -/
def Fits (types : List TypeDefinition) (e : LocatedExtension) : Prop :=
  ∃ t ∈ types, t.name = e.extension.name ∧ t.body.kind = e.extension.body.kind

/-- **What is wrong with an extension**: it names no type, or one of another kind. -/
inductive Misfit (types : List TypeDefinition) (e : LocatedExtension) : SchemaError → Prop where
  | undefinedType : (∀ t ∈ types, t.name ≠ e.extension.name) →
    Misfit types e (.extensionOfUndefinedType e.extension.name e.location)
  | otherKind {t : TypeDefinition} : t ∈ types → t.name = e.extension.name →
    t.body.kind ≠ e.extension.body.kind →
    Misfit types e (.extensionOfOtherKind e.extension.name e.location)

/-- Extensions of types with other names are passed on. -/
theorem map_extended_of_ne (h : ∀ t ∈ types, t.name ≠ e.extension.name) :
    types.map (·.extended [e.extension]) = types := by
  have hid : types.map (·.extended [e.extension]) = types.map id :=
    List.map_congr_left fun t ht => TypeDefinition.extended_of_ne (h t ht)
  rw [hid, List.map_id]

/-- A name that stands first stands nowhere else. -/
theorem name_ne_of_nodup_cons {t : TypeDefinition} (hn : (typeNames (t :: types)).Nodup) :
    ∀ u ∈ types, u.name ≠ t.name := by
  intro u hu he
  have ht : t.name ∉ typeNames types := (List.nodup_cons.1 hn).1
  exact ht (he ▸ List.mem_map_of_mem hu)

/-- **One extension is applied** if it fits, and only the type that it names changes. -/
theorem applyExtension_eq_ok (hn : (typeNames types).Nodup) :
    applyExtension e types = .ok types' ↔
      Fits types e ∧ types' = types.map (·.extended [e.extension]) := by
  induction types generalizing types' with
  | nil => simp [applyExtension, Fits]
  | cons t types ih =>
    have hothers : ∀ u ∈ types, u.name ≠ t.name := name_ne_of_nodup_cons hn
    have hrest : (typeNames types).Nodup := (List.nodup_cons.1 hn).2
    rw [applyExtension]
    by_cases hname : t.name = e.extension.name
    · have hmap : types.map (·.extended [e.extension]) = types :=
        map_extended_of_ne fun u hu => hname ▸ hothers u hu
      have hfits : Fits (t :: types) e ↔ t.body.kind = e.extension.body.kind := by
        constructor
        · rintro ⟨u, hu, hun, hk⟩
          rcases List.mem_cons.1 hu with rfl | hu
          · exact hk
          · exact absurd (hun.trans hname.symm) (hothers u hu)
        · exact fun hk => ⟨t, List.mem_cons_self, hname, hk⟩
      rw [if_pos hname, hfits, List.map_cons, hmap]
      cases hu : t.extend? e.extension with
      | none =>
        have hk := TypeDefinition.extend?_eq_none.1 hu
        simp [hk]
      | some u =>
        obtain ⟨hk, rfl⟩ := (TypeDefinition.extend?_eq_some hname).1 hu
        simp [hk, eq_comm]
    · have hfits : Fits (t :: types) e ↔ Fits types e := by
        simp [Fits, hname]
      rw [if_neg hname, hfits, List.map_cons, TypeDefinition.extended_of_ne hname]
      cases ha : applyExtension e types with
      | error err =>
        have hno : ¬Fits types e := fun hf => by
          rw [(ih hrest).2 ⟨hf, rfl⟩] at ha
          cases ha
        simp [hno]
      | ok rest =>
        obtain ⟨hf, rfl⟩ := (ih hrest).1 ha
        simp [hf, eq_comm]

/-- **One extension is refused** if it does not fit. -/
theorem applyExtension_eq_error (hn : (typeNames types).Nodup) :
    applyExtension e types = .error err ↔ Misfit types e err := by
  induction types with
  | nil =>
    rw [applyExtension]
    constructor
    · intro h
      obtain rfl := Except.error.inj h
      exact .undefinedType (List.forall_mem_nil _)
    · intro h
      cases h with
      | undefinedType => rfl
      | otherKind ht => cases ht
  | cons t types ih =>
    have hothers : ∀ u ∈ types, u.name ≠ t.name := name_ne_of_nodup_cons hn
    rw [applyExtension]
    by_cases hname : t.name = e.extension.name
    · rw [if_pos hname]
      constructor
      · intro h
        split at h
        · cases h
        next hu =>
          obtain rfl := Except.error.inj h
          exact .otherKind List.mem_cons_self hname (TypeDefinition.extend?_eq_none.1 hu)
      · intro h
        cases h with
        | undefinedType h => exact absurd hname (h t List.mem_cons_self)
        | @otherKind u hu hun hk =>
          rcases List.mem_cons.1 hu with rfl | hu
          · rw [TypeDefinition.extend?_eq_none.2 hk]
          · exact absurd (hun.trans hname.symm) (hothers u hu)
    · have hmisfit : Misfit (t :: types) e err ↔ Misfit types e err := by
        constructor
        · intro h
          cases h with
          | undefinedType h => exact .undefinedType fun u hu => h u (List.mem_cons_of_mem _ hu)
          | otherKind hu hun hk =>
            rcases List.mem_cons.1 hu with rfl | hu
            · exact absurd hun hname
            · exact .otherKind hu hun hk
        · intro h
          cases h with
          | undefinedType h => exact .undefinedType (List.forall_mem_cons.2 ⟨hname, h⟩)
          | otherKind hu hun hk => exact .otherKind (List.mem_cons_of_mem _ hu) hun hk
      rw [if_neg hname, hmisfit, ← ih (List.nodup_cons.1 hn).2]
      cases applyExtension e types <;> simp

end Step

/-! ## Extensions in load order -/

section Run

variable {types types' : List TypeDefinition} {es : List LocatedExtension} {e : LocatedExtension}
  {err : SchemaError}

/-- The extensions without their places. -/
def bare (es : List LocatedExtension) : List TypeExtension := es.map (·.extension)

theorem typeNames_map_extended {es : List TypeExtension} :
    typeNames (types.map (·.extended es)) = typeNames types := by
  simp [typeNames, Function.comp_def]

/-- **Extended types take the extensions that they took before**: names and kinds stay. -/
theorem fits_map_extended {es : List TypeExtension} :
    Fits (types.map (·.extended es)) e ↔ Fits types e := by
  simp [Fits]

theorem misfit_map_extended {es : List TypeExtension} :
    Misfit (types.map (·.extended es)) e err ↔ Misfit types e err := by
  constructor
  · intro h
    cases h with
    | undefinedType h =>
      refine .undefinedType fun t ht => ?_
      exact h (t.extended es) (List.mem_map_of_mem ht)
    | otherKind hu hun hk =>
      obtain ⟨t, ht, rfl⟩ := List.mem_map.1 hu
      rw [TypeDefinition.kind_extended] at hk
      exact .otherKind ht hun hk
  · intro h
    cases h with
    | undefinedType h =>
      refine .undefinedType fun u hu => ?_
      obtain ⟨t, ht, rfl⟩ := List.mem_map.1 hu
      exact h t ht
    | otherKind ht htn hk =>
      rw [← TypeDefinition.kind_extended] at hk
      exact .otherKind (List.mem_map_of_mem ht) htn hk

/-- **Extensions are applied** if all of them fit, and then each type has its own. -/
theorem extendAll_eq_ok (hn : (typeNames types).Nodup) :
    es.foldlM (fun types e => applyExtension e types) types = .ok types' ↔
      (∀ e ∈ es, Fits types e) ∧ types' = types.map (·.extended (bare es)) := by
  induction es generalizing types with
  | nil => simp [bare, pure, Except.pure, eq_comm]
  | cons e es ih =>
    have hnames : (typeNames (types.map (·.extended [e.extension]))).Nodup := by
      rwa [typeNames_map_extended]
    have hmap : (types.map (·.extended [e.extension])).map (·.extended (bare es)) =
        types.map (·.extended (bare (e :: es))) := by
      rw [List.map_map]
      exact List.map_congr_left fun t _ => TypeDefinition.extended_append.symm
    rw [Except.foldlM_cons_eq_ok, List.forall_mem_cons]
    constructor
    · rintro ⟨mid, he, hes⟩
      obtain ⟨hfits, rfl⟩ := (applyExtension_eq_ok hn).1 he
      obtain ⟨hall, rfl⟩ := (ih hnames).1 hes
      exact ⟨⟨hfits, fun x hx => fits_map_extended.1 (hall x hx)⟩, hmap⟩
    · rintro ⟨⟨hfits, hall⟩, rfl⟩
      exact ⟨_, (applyExtension_eq_ok hn).2 ⟨hfits, rfl⟩,
        (ih hnames).2 ⟨fun x hx => fits_map_extended.2 (hall x hx), hmap.symm⟩⟩

/-- **The error at the first extension that does not fit.** -/
def FirstMisfit (types : List TypeDefinition) (es : List LocatedExtension) (err : SchemaError) :
    Prop :=
  ∃ before e after, es = before ++ e :: after ∧ (∀ x ∈ before, Fits types x) ∧ Misfit types e err

/-- **Extensions fail at the first that does not fit.** -/
theorem extendAll_eq_error (hn : (typeNames types).Nodup) :
    es.foldlM (fun types e => applyExtension e types) types = .error err ↔
      FirstMisfit types es err := by
  rw [Except.foldlM_eq_error]
  constructor
  · rintro ⟨before, e, after, mid, rfl, hbefore, he⟩
    obtain ⟨hfits, rfl⟩ := (extendAll_eq_ok hn).1 hbefore
    rw [applyExtension_eq_error (by rwa [typeNames_map_extended]), misfit_map_extended] at he
    exact ⟨before, e, after, rfl, hfits, he⟩
  · rintro ⟨before, e, after, rfl, hfits, he⟩
    refine ⟨before, e, after, _, rfl, (extendAll_eq_ok hn).2 ⟨hfits, rfl⟩, ?_⟩
    rwa [applyExtension_eq_error (by rwa [typeNames_map_extended]), misfit_map_extended]

end Run

/-! ## Building -/

/-- An error at an extension. -/
def SchemaError.IsAtExtension : SchemaError → Prop
  | .extensionOfUndefinedType _ _ => True
  | .extensionOfOtherKind _ _ => True
  | _ => False

theorem FirstMisfit.isAtExtension {types : List TypeDefinition} {es : List LocatedExtension}
    {err : SchemaError} (h : FirstMisfit types es err) : err.IsAtExtension := by
  obtain ⟨_, _, _, _, _, hm⟩ := h
  cases hm <;> trivial

namespace SchemaDraft

variable {d : SchemaDraft} {err : SchemaError}

/-- Roots that are no object types are no errors at extensions. -/
theorem failsWith_checkRoot {types : List TypeDefinition} {name? : Option String} :
    Except.FailsWith (fun e => ¬e.IsAtExtension) (checkRoot types name?) := by
  rw [checkRoot.eq_def]
  split
  · exact .ok _
  · split
    · exact .ok _
    · exact .error id

/-- **A build fails at an extension** exactly when extending the types does. -/
theorem build_eq_error_at_extension (he : err.IsAtExtension) :
    d.build = .error err ↔ d.extendedTypes = .error err := by
  constructor
  · intro h
    cases hx : d.extendedTypes with
    | error e =>
      rw [build, hx] at h
      obtain rfl := Except.error.inj h
      rfl
    | ok types =>
      -- behind the extensions there are errors of roots only
      have hroots : Except.FailsWith (fun e => ¬e.IsAtExtension) d.build := by
        rw [build, hx]
        refine .bind (.ok _) fun extended _ => ?_
        dsimp only
        split
        · exact .error id
        · exact failsWith_checkRoot.bind fun _ _ => failsWith_checkRoot.bind fun _ _ =>
            failsWith_checkRoot.bind fun _ _ => .ok _
      exact absurd he (hroots err h)
  · intro h
    rw [build, h]
    rfl

end SchemaDraft

/-! ## What is loaded and built -/

section Folding

variable {sources : List SchemaSource} {ds : List PlacedDefinition}

/-- The definitions of types without their places. -/
def definitionsIn (ds : List PlacedDefinition) : List TypeDefinition :=
  (typesIn ds).map LocatedType.definition

theorem typeNames_definitionsIn :
    typeNames (definitionsIn ds) = (typesIn ds).map LocatedType.name := by
  rw [typeNames, definitionsIn, List.map_map]
  rfl

/-- The built-in scalars stand behind the types, where their names are free. -/
theorem withBuiltIns_eq (types : List TypeDefinition) :
    withBuiltIns types = types ++
      (["Boolean", "Float", "ID", "Int", "String"].filter fun n => n ∉ typeNames types).map
        builtInScalar := by
  have hfree : ∀ n, (findType? types n).isNone = decide (n ∉ typeNames types) := by
    intro n
    rw [Bool.eq_iff_iff, Option.isNone_iff_eq_none, findType?_eq_none, decide_eq_true_eq]
  simp only [withBuiltIns, builtInScalars, hfree]

/-- Extending the types of a loaded draft. -/
theorem extendedTypes_loadAll (h : Written 0 sources ds) {d : SchemaDraft}
    (hd : loadAll sources = .ok d) :
    (typeNames (definitionsIn ds)).Nodup ∧ d.extendedTypes =
      (extensionsIn ds).foldlM (fun types e => applyExtension e types) (definitionsIn ds) := by
  obtain ⟨hn, htypes, hextensions, -⟩ := loadAll_eq_ok h hd
  refine ⟨by rwa [typeNames_definitionsIn], ?_⟩
  rw [SchemaDraft.extendedTypes, htypes, hextensions]
  rfl

/-- **Extensions are folded into their types**, wherever they are written. In every schema
that is built from documents, a type is its definition with the parts of all of its
extensions appended in load order; the types stand in the order of their definitions, and
behind them the built-in scalars that no document defines. Loading fails exactly at the first
definition whose name is known, and building fails at extensions exactly at the first that
names no type or one of another kind. -/
theorem extensions_folded (h : Written 0 sources ds) :
    (∀ d schema, loadAll sources = .ok d → d.build = .ok schema →
      schema.types = (definitionsIn ds).map (·.extended (bare (extensionsIn ds))) ++
        (["Boolean", "Float", "ID", "Int", "String"].filter
          fun n => n ∉ typeNames (definitionsIn ds)).map builtInScalar) ∧
    (∀ e, loadAll sources = .error e ↔ FirstRepetition ds e) ∧
    ∀ d, loadAll sources = .ok d → ∀ err, d.build = .error err ∧ err.IsAtExtension ↔
      FirstMisfit (definitionsIn ds) (extensionsIn ds) err := by
  refine ⟨?_, fun e => loadAll_eq_error h, ?_⟩
  · intro d schema hd hb
    obtain ⟨hn, hext⟩ := extendedTypes_loadAll h hd
    obtain ⟨extended, he, hs⟩ := SchemaDraft.types_of_build hb
    rw [hext] at he
    obtain ⟨-, rfl⟩ := (extendAll_eq_ok hn).1 he
    rw [hs, withBuiltIns_eq, typeNames_map_extended]
  · intro d hd err
    obtain ⟨hn, hext⟩ := extendedTypes_loadAll h hd
    constructor
    · rintro ⟨hb, he⟩
      rwa [SchemaDraft.build_eq_error_at_extension he, hext, extendAll_eq_error hn] at hb
    · intro hm
      have he : err.IsAtExtension := hm.isAtExtension
      refine ⟨?_, he⟩
      rwa [SchemaDraft.build_eq_error_at_extension he, hext, extendAll_eq_error hn]

end Folding

namespace Sample

def firstText : List Char :=
  "extend union U @a = B
type Query { q: ID }
type B { x: ID }
scalar ID".toList

def secondText : List Char :=
  "extend type B { y: ID }
union U @b = Query
extend union U = U".toList

/-- Two documents, of which each extends a type of the other. -/
def extendingSources : List SchemaSource :=
  [⟨none, firstText⟩, ⟨some "more.graphqls", secondText⟩]

end Sample

/-- Extensions in front of a definition and behind it, in its document and in another one. -/
theorem sample_extensions_folded :
    ∃ ds d schema, Written 0 Sample.extendingSources ds ∧
      loadAll Sample.extendingSources = .ok d ∧ d.build = .ok schema ∧
      (schema.type? "U").map (fun t => (t.directives.map (·.name), t.body.members)) =
        some (["b", "a"], ["Query", "B", "U"]) ∧
      typeNames schema.types =
        ["Query", "B", "ID", "U", "Boolean", "Float", "Int", "String"] ∧
      schema.types = (definitionsIn ds).map (·.extended (bare (extensionsIn ds))) ++
        (["Boolean", "Float", "ID", "Int", "String"].filter
          fun n => n ∉ typeNames (definitionsIn ds)).map builtInScalar := by
  obtain ⟨schema, hbuild, hU, hnames⟩ := Except.exists_of_any
    (x := loadAll Sample.extendingSources >>= SchemaDraft.build)
    (p := fun schema =>
      (schema.type? "U").map (fun t => (t.directives.map (·.name), t.body.members)) =
        some (["b", "a"], ["Query", "B", "U"]) ∧
      typeNames schema.types =
        ["Query", "B", "ID", "U", "Boolean", "Float", "Int", "String"])
    (by decide +kernel)
  obtain ⟨d, hload, hb⟩ := Except.bind_eq_ok.1 hbuild
  obtain ⟨ds, hw⟩ := exists_written_of_load hload
  exact ⟨ds, d, schema, hw, hload, hb, hU, hnames, (extensions_folded hw).1 d schema hload hb⟩

end SelectionModel
