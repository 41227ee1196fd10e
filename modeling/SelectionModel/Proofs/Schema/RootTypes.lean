import SelectionModel.Proofs.Schema.Extensions

/-!
# Root types

Schema definitions name the root types, a later one in place of an earlier one. What is the
root of an operation that none of them names is settled at the end, for each operation by
itself: the object type that bears its word.

* `namedRoot?`: the root that schema definitions name.
* `SchemaDraft.root_of_build`, `SchemaDraft.build_eq_noQueryType`: what a build makes of them.
* `root?_eq_some`, `build_eq_noQueryType_iff`: the same for documents, by what they define.
* `root_types_of_schema`: **the roots of a schema**, and when they are those that schema
  definitions name.
* `unnamed_operation_rooted`: **a schema definition does not keep other operations out.**
-/

namespace SelectionModel

/-! ## Named roots -/

/-- The root type that is named for a kind of operation. -/
def RootTypes.named? (r : RootTypes) : OperationKind → Option String
  | .query => r.query
  | .mutation => r.mutation
  | .subscription => r.subscription

/-- **The root that schema definitions name** for a kind of operation: the last one counts. -/
def namedRoot? (ds : List PlacedDefinition) (kind : OperationKind) : Option String :=
  ((rootsIn ds).filterMap (·.named? kind)).getLast?

section Named

variable {kind : OperationKind}

theorem named?_overrideRoots (r s : RootTypes) :
    (SchemaDraft.overrideRoots r s).named? kind = (s.named? kind).or (r.named? kind) := by
  cases kind <;> rfl

/-- The last definition that names a root decides. -/
theorem named?_foldl (rs : List RootTypes) (r : RootTypes) :
    (rs.foldl SchemaDraft.overrideRoots r).named? kind =
      ((rs.filterMap (·.named? kind)).getLast?).or (r.named? kind) := by
  induction rs generalizing r with
  | nil => rfl
  | cons s rs ih =>
    rw [List.foldl_cons, ih, named?_overrideRoots]
    cases hs : s.named? kind with
    | none =>
      have hskip : (s :: rs).filterMap (·.named? kind) = rs.filterMap (·.named? kind) :=
        List.filterMap_cons_none hs
      rw [hskip, Option.none_or]
    | some name =>
      have hkeep : (s :: rs).filterMap (·.named? kind) = name :: rs.filterMap (·.named? kind) :=
        List.filterMap_cons_some hs
      rw [hkeep, List.getLast?_cons]
      cases (rs.filterMap (·.named? kind)).getLast? <;> rfl

theorem named?_loaded {sources : List SchemaSource} {ds : List PlacedDefinition} {d : SchemaDraft}
    (h : Written 0 sources ds) (hd : loadAll sources = .ok d) :
    d.roots.named? kind = namedRoot? ds kind := by
  obtain ⟨-, -, -, hroots⟩ := loadAll_eq_ok h hd
  have hnone : ({} : RootTypes).named? kind = none := by cases kind <;> rfl
  rw [hroots, named?_foldl, hnone, Option.or_none]
  rfl

end Named

/-! ## Object types -/

section Objects

variable {types : List TypeDefinition} {name : String}

/-- An object type of a name is among some types. -/
def DefinesObject (types : List TypeDefinition) (name : String) : Prop :=
  ∃ t ∈ types, t.name = name ∧ t.body.kind = .object

theorem isObject_iff {b : TypeBody} : b.isObject = true ↔ b.kind = .object := by
  cases b <;> simp [TypeBody.isObject, TypeBody.kind]

theorem isObjectName_iff (hn : (typeNames types).Nodup) :
    isObjectName types name = true ↔ DefinesObject types name := by
  rw [isObjectName]
  constructor
  · intro h
    split at h
    next t ht =>
      obtain ⟨hm, hname⟩ := mem_of_findType? ht
      exact ⟨t, hm, hname, isObject_iff.1 h⟩
    · cases h
  · rintro ⟨t, ht, rfl, hk⟩
    rw [findType?_of_mem hn ht]
    exact isObject_iff.2 hk

/-- Extensions and built-in scalars make no difference to which object types there are. -/
theorem definesObject_complete {es : List TypeExtension} :
    DefinesObject (withBuiltIns (types.map (·.extended es))) name ↔ DefinesObject types name := by
  constructor
  · rintro ⟨u, hu, hname, hk⟩
    rcases List.mem_append.1 hu with hu | hu
    · obtain ⟨t, ht, rfl⟩ := List.mem_map.1 hu
      rw [TypeDefinition.kind_extended] at hk
      exact ⟨t, ht, hname, hk⟩
    · obtain ⟨n, -, rfl⟩ := List.mem_map.1 hu
      cases hk
  · rintro ⟨t, ht, hname, hk⟩
    refine ⟨t.extended es, List.mem_append_left _ (List.mem_map_of_mem ht), hname, ?_⟩
    rwa [TypeDefinition.kind_extended]

theorem objectNamed?_eq_some {found : String} :
    objectNamed? types name = some found ↔ found = name ∧ isObjectName types name = true := by
  rw [objectNamed?]
  cases isObjectName types name with
  | false => simp
  | true => simp [eq_comm]

end Objects

/-! ## Building -/

namespace SchemaDraft

variable {d : SchemaDraft} {schema : Schema} {types : List TypeDefinition}

/-- A root type that is checked and named is an object type. -/
theorem checkRoot_eq_ok {name? : Option String} {u : Unit} (h : checkRoot types name? = .ok u)
    {name : String} (hname : name? = some name) : isObjectName types name = true := by
  subst hname
  rw [checkRoot] at h
  split at h
  · assumption
  · cases h

/-- **The roots that a build gives**: a root that is named, and for another operation the
object type that bears its word. All of them are object types. -/
theorem root_of_build (hx : d.extendedTypes = .ok types) (hb : d.build = .ok schema)
    (kind : OperationKind) :
    schema.root? kind =
        (d.roots.named? kind).or (objectNamed? (withBuiltIns types) kind.word) ∧
      ∀ name, schema.root? kind = some name → isObjectName (withBuiltIns types) name = true := by
  rw [build, hx] at hb
  obtain ⟨extended, he, hb⟩ := Except.bind_eq_ok.1 hb
  obtain rfl := Except.ok.inj he
  dsimp only at hb
  split at hb
  · cases hb
  next query hquery =>
    obtain ⟨_, hcheck, hb⟩ := Except.bind_eq_ok.1 hb
    obtain ⟨_, hmutation, hb⟩ := Except.bind_eq_ok.1 hb
    obtain ⟨_, hsubscription, hb⟩ := Except.bind_eq_ok.1 hb
    obtain rfl := Except.ok.inj hb
    -- a root without a name was looked up as an object type
    have unnamed : ∀ {named? : Option String} {word name : String},
        (∀ name, named? = some name → isObjectName (withBuiltIns types) name = true) →
        named?.or (objectNamed? (withBuiltIns types) word) = some name →
        isObjectName (withBuiltIns types) name = true := by
      intro named? word name hnamed h
      rcases Option.or_eq_some_iff.1 h with h | ⟨-, h⟩
      · exact hnamed name h
      · obtain ⟨rfl, ho⟩ := objectNamed?_eq_some.1 h
        exact ho
    cases kind with
    | query => exact ⟨hquery.symm, fun name h => checkRoot_eq_ok hcheck h⟩
    | mutation => exact ⟨rfl, fun name h => unnamed (fun _ => checkRoot_eq_ok hmutation) h⟩
    | subscription => exact ⟨rfl, fun name h => unnamed (fun _ => checkRoot_eq_ok hsubscription) h⟩

theorem checkRoot_ne_noQueryType {name? : Option String} {x : Except SchemaError Schema}
    (h : (do checkRoot types name?; x) = .error .noQueryType) : x = .error .noQueryType := by
  cases hc : checkRoot types name? with
  | ok _ =>
    rw [hc] at h
    exact h
  | error e =>
    rw [hc] at h
    obtain rfl := Except.error.inj h
    rw [checkRoot.eq_def] at hc
    split at hc
    · cases hc
    · split at hc <;> cases hc

/-- **A build lacks a query root** if none is named and no object type bears the word. -/
theorem build_eq_noQueryType (hx : d.extendedTypes = .ok types) :
    d.build = .error .noQueryType ↔
      d.roots.query = none ∧ isObjectName (withBuiltIns types) "Query" = false := by
  have hnone : d.roots.query.or (objectNamed? (withBuiltIns types) "Query") = none ↔
      d.roots.query = none ∧ isObjectName (withBuiltIns types) "Query" = false := by
    rw [Option.or_eq_none_iff, objectNamed?]
    cases isObjectName (withBuiltIns types) "Query" <;> simp
  rw [← hnone, build, hx]
  dsimp only [bind, Except.bind]
  split
  · simp_all
  next query hquery =>
    constructor
    · intro h
      cases checkRoot_ne_noQueryType (checkRoot_ne_noQueryType (checkRoot_ne_noQueryType h))
    · intro h
      rw [hquery] at h
      cases h

end SchemaDraft

/-! ## Roots of a schema -/

section Roots

variable {sources : List SchemaSource} {ds : List PlacedDefinition} {d : SchemaDraft}

/-- The types of a draft whose extensions fit, before and behind the built-in scalars. -/
theorem extendedTypes_eq_ok (h : Written 0 sources ds) (hd : loadAll sources = .ok d)
    {types : List TypeDefinition} : d.extendedTypes = .ok types ↔
      (∀ e ∈ extensionsIn ds, Fits (definitionsIn ds) e) ∧
        types = (definitionsIn ds).map (·.extended (bare (extensionsIn ds))) := by
  obtain ⟨hn, hext⟩ := extendedTypes_loadAll h hd
  rw [hext, extendAll_eq_ok hn]

theorem nodup_complete (h : Written 0 sources ds) (hd : loadAll sources = .ok d)
    {es : List TypeExtension} :
    (typeNames (withBuiltIns ((definitionsIn ds).map (·.extended es)))).Nodup := by
  obtain ⟨hn, -⟩ := extendedTypes_loadAll h hd
  refine nodup_withBuiltIns ?_
  rwa [typeNames_map_extended]

/-- Names of object types are looked up among the completed types, where no others are. -/
theorem isObjectName_complete (h : Written 0 sources ds) (hd : loadAll sources = .ok d)
    {name : String} :
    isObjectName (withBuiltIns ((definitionsIn ds).map (·.extended (bare (extensionsIn ds)))))
        name = true ↔ DefinesObject (definitionsIn ds) name := by
  rw [isObjectName_iff (nodup_complete h hd), definesObject_complete]

section Built

variable {schema : Schema}

/-- A root is named by a schema definition, or left out and found by its word. -/
theorem root?_eq_some (h : Written 0 sources ds) (hd : loadAll sources = .ok d)
    (hb : d.build = .ok schema) (kind : OperationKind) (name : String) :
    schema.root? kind = some name ↔ namedRoot? ds kind = some name ∨
      namedRoot? ds kind = none ∧ name = kind.word ∧ DefinesObject (definitionsIn ds) name := by
  obtain ⟨extended, he, -⟩ := SchemaDraft.types_of_build hb
  have hroots := SchemaDraft.root_of_build he hb
  obtain ⟨-, rfl⟩ := (extendedTypes_eq_ok h hd).1 he
  rw [(hroots kind).1, Option.or_eq_some_iff, named?_loaded h hd, objectNamed?_eq_some]
  refine or_congr_right (and_congr_right fun _ => and_congr_right fun hname => ?_)
  rw [← hname, isObjectName_complete h hd]

theorem definesObject_of_root? (h : Written 0 sources ds) (hd : loadAll sources = .ok d)
    (hb : d.build = .ok schema) {kind : OperationKind} {name : String}
    (hname : schema.root? kind = some name) : DefinesObject schema.types name := by
  obtain ⟨extended, he, hs⟩ := SchemaDraft.types_of_build hb
  obtain ⟨-, hobject⟩ := SchemaDraft.root_of_build he hb kind
  obtain ⟨-, rfl⟩ := (extendedTypes_eq_ok h hd).1 he
  have ho := hobject name hname
  rwa [isObjectName_iff (nodup_complete h hd), ← hs] at ho

/-- **The roots are exactly the named ones** if and only if no object type bears the word of
an operation without a name. -/
theorem root?_eq_namedRoot?_iff (h : Written 0 sources ds) (hd : loadAll sources = .ok d)
    (hb : d.build = .ok schema) :
    (∀ kind, schema.root? kind = namedRoot? ds kind) ↔
      ∀ kind, namedRoot? ds kind = none → ¬DefinesObject (definitionsIn ds) kind.word := by
  constructor
  · intro hall kind hk hdef
    have hroot := (root?_eq_some h hd hb kind kind.word).2 (.inr ⟨hk, rfl, hdef⟩)
    rw [hall, hk] at hroot
    cases hroot
  · intro hall kind
    ext name
    rw [root?_eq_some h hd hb, or_iff_left]
    rintro ⟨hk, rfl, hdef⟩
    exact hall kind hk hdef

end Built

/-- **When a build lacks a query root**: all extensions fit, and neither a schema definition
nor an object type gives one. -/
theorem build_eq_noQueryType_iff (h : Written 0 sources ds) (hd : loadAll sources = .ok d) :
    d.build = .error .noQueryType ↔ (∀ e ∈ extensionsIn ds, Fits (definitionsIn ds) e) ∧
      namedRoot? ds .query = none ∧ ¬DefinesObject (definitionsIn ds) "Query" := by
  have hnamed : d.roots.named? .query = namedRoot? ds .query := named?_loaded h hd
  constructor
  · intro hb
    cases he : d.extendedTypes with
    | error e =>
      have hfirst : d.build = .error e := by rw [SchemaDraft.build, he]; rfl
      obtain rfl := Except.error.inj (hfirst.symm.trans hb)
      obtain ⟨hn, hext⟩ := extendedTypes_loadAll h hd
      rw [hext, extendAll_eq_error hn] at he
      exact he.isAtExtension.elim
    | ok types =>
      obtain ⟨hquery, hno⟩ := (SchemaDraft.build_eq_noQueryType he).1 hb
      obtain ⟨hfits, rfl⟩ := (extendedTypes_eq_ok h hd).1 he
      refine ⟨hfits, hnamed.symm.trans hquery, fun hdef => ?_⟩
      rw [(isObjectName_complete h hd).2 hdef] at hno
      cases hno
  · rintro ⟨hfits, hquery, hno⟩
    have he := (extendedTypes_eq_ok h hd).2 ⟨hfits, rfl⟩
    rw [SchemaDraft.build_eq_noQueryType he]
    refine ⟨hnamed.trans hquery, ?_⟩
    rw [← Bool.not_eq_true, isObjectName_complete h hd]
    exact hno

/-- **The roots of a schema.** A root is the one that schema definitions name; where none
names it, it is the object type that bears the word of the operation, if there is one. So the
roots are exactly those that schema definitions name if and only if no object type bears the
word of an operation that they leave out. Every root is an object type that is defined, and
building fails for want of a query root when none is named and no object type is called so. -/
theorem root_types_of_schema (h : Written 0 sources ds) (hd : loadAll sources = .ok d) :
    (∀ schema, d.build = .ok schema →
      (∀ kind name, schema.root? kind = some name ↔ namedRoot? ds kind = some name ∨
        namedRoot? ds kind = none ∧ name = kind.word ∧ DefinesObject (definitionsIn ds) name) ∧
      (rootsIn ds = [] → ∀ kind name, schema.root? kind = some name ↔
        name = kind.word ∧ DefinesObject (definitionsIn ds) name) ∧
      ((∀ kind, schema.root? kind = namedRoot? ds kind) ↔
        ∀ kind, namedRoot? ds kind = none → ¬DefinesObject (definitionsIn ds) kind.word) ∧
      ∀ kind name, schema.root? kind = some name → DefinesObject schema.types name) ∧
    (d.build = .error .noQueryType ↔ (∀ e ∈ extensionsIn ds, Fits (definitionsIn ds) e) ∧
      namedRoot? ds .query = none ∧ ¬DefinesObject (definitionsIn ds) "Query") := by
  refine ⟨fun schema hb => ⟨root?_eq_some h hd hb, ?_, root?_eq_namedRoot?_iff h hd hb,
    fun _ _ => definesObject_of_root? h hd hb⟩, build_eq_noQueryType_iff h hd⟩
  intro hnone kind name
  have hk : namedRoot? ds kind = none := by rw [namedRoot?, hnone]; rfl
  rw [root?_eq_some h hd hb, hk]
  simp

end Roots

namespace Sample

/-- Two schema definitions, of which the later one names another query root. -/
def rootedSources : List SchemaSource :=
  [⟨none, "schema { query: Root mutation: Change }
type Root { a: Int }
type Query { b: Int }".toList⟩,
    ⟨none, "schema { query: Query }
type Change { c: Int }".toList⟩]

/-- A schema definition that leaves mutations out, and a type that bears their word. -/
def virusSources : List SchemaSource :=
  [⟨none, "schema { query: Query }
type Query { latest: Virus }
type Virus { mutations: [Mutation] }
type Mutation { name: ID }".toList⟩]

end Sample

/-- The later name of the query root and the only one of the mutation root count. -/
theorem sample_root_types :
    ∃ ds d schema, Written 0 Sample.rootedSources ds ∧ loadAll Sample.rootedSources = .ok d ∧
      d.build = .ok schema ∧ schema.query = "Query" ∧ schema.mutation = some "Change" ∧
      schema.subscription = none ∧
      ∀ kind name, schema.root? kind = some name → DefinesObject schema.types name := by
  obtain ⟨schema, hbuild, hq, hm, hs⟩ := Except.exists_of_any
    (x := loadAll Sample.rootedSources >>= SchemaDraft.build)
    (p := fun schema => schema.query = "Query" ∧ schema.mutation = some "Change" ∧
      schema.subscription = none) (by decide +kernel)
  obtain ⟨d, hload, hb⟩ := Except.bind_eq_ok.1 hbuild
  obtain ⟨ds, hw⟩ := exists_written_of_load hload
  exact ⟨ds, d, schema, hw, hload, hb, hq, hm, hs,
    ((root_types_of_schema hw hload).1 schema hb).2.2.2⟩

/-- **A schema definition does not keep other operations out**: no schema definition names a
mutation root, but the type of that word is one. -/
theorem unnamed_operation_rooted :
    ∃ ds d schema, Written 0 Sample.virusSources ds ∧ loadAll Sample.virusSources = .ok d ∧
      d.build = .ok schema ∧ rootsIn ds ≠ [] ∧ namedRoot? ds .mutation = none ∧
      schema.root? .mutation = some "Mutation" := by
  obtain ⟨⟨d, schema⟩, hboth, hroots, hm⟩ := Except.exists_of_any
    (x := loadAll Sample.virusSources >>= fun d => d.build.map (d, ·))
    (p := fun r => r.1.roots = { query := some "Query" } ∧ r.2.mutation = some "Mutation")
    (by decide +kernel)
  obtain ⟨c, hload, hmap⟩ := Except.bind_eq_ok.1 hboth
  obtain ⟨_, hb, hpair⟩ := Except.map_eq_ok.1 hmap
  obtain ⟨rfl, rfl⟩ := Prod.mk.inj hpair
  obtain ⟨ds, hw⟩ := exists_written_of_load hload
  have hnamed : ∀ kind, namedRoot? ds kind = c.roots.named? kind := fun _ =>
    (named?_loaded hw hload).symm
  rw [hroots] at hnamed
  refine ⟨ds, c, _, hw, hload, hb, fun hnone => ?_, hnamed .mutation, hm⟩
  have hquery := hnamed .query
  rw [namedRoot?, hnone] at hquery
  cases hquery

end SelectionModel
