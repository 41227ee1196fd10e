import Mathlib.Data.List.Nodup
import SelectionModel.OrderedSet
import SelectionModel.Proofs.Steps
import SelectionModel.Schema.Draft

/-!
# Names in drafts and schemas

Loading refuses a second definition of a name, extensions change no name, and a built-in
scalar is added only where its name is free. So a name in a schema stands for one type.

* `SchemaDraft.Loaded`: a draft into which documents were loaded.
* `SchemaDraft.nodup_names_of_build`: **no two types of a schema have the same name.**
-/

namespace SelectionModel

/-- The names of some types. -/
def typeNames (types : List TypeDefinition) : List String := types.map TypeDefinition.name

section Find

variable {types : List TypeDefinition} {name : String} {t : TypeDefinition}

theorem findType?_eq_none : findType? types name = none ↔ name ∉ typeNames types := by
  simp only [findType?, typeNames, List.find?_eq_none, beq_iff_eq, List.mem_map, not_exists,
    not_and]

theorem mem_of_findType? (h : findType? types name = some t) : t ∈ types ∧ t.name = name :=
  ⟨List.mem_of_find?_eq_some h, by simpa using List.find?_some h⟩

/-- Where no name stands twice, a type is found under its name. -/
theorem findType?_of_mem (hn : (typeNames types).Nodup) (ht : t ∈ types) :
    findType? types t.name = some t := by
  cases h : findType? types t.name with
  | none => exact absurd (List.mem_map_of_mem ht) (findType?_eq_none.1 h)
  | some u =>
    obtain ⟨hu, he⟩ := mem_of_findType? h
    rw [List.inj_on_of_nodup_map hn hu ht he]

end Find

/-! ## Drafts -/

namespace SchemaDraft

/-- **A draft into which documents were loaded**, from paths or without. -/
inductive Loaded : SchemaDraft → Prop where
  | empty : Loaded .empty
  | load {d d' : SchemaDraft} {path : Option String} {text : List Char} : Loaded d →
    d.load path text = .ok d' → Loaded d'

/-- The names of the types in a draft. -/
def names (d : SchemaDraft) : List String := typeNames (d.types.map LocatedType.definition)

variable {d d' : SchemaDraft}

/-- A definition is refused if its name is known. -/
theorem nodup_addDefinition {label : String} {definition : SchemaDefinition}
    (h : d.addDefinition label definition = .ok d') (hn : d.names.Nodup) : d'.names.Nodup := by
  cases definition with
  | directive =>
    obtain rfl := Except.ok.inj h
    exact hn
  | roots named =>
    obtain rfl := Except.ok.inj h
    exact hn
  | extension e =>
    obtain rfl := Except.ok.inj h
    exact hn
  | type t =>
    rw [addDefinition] at h
    split at h
    · cases h
    next hnew =>
    obtain rfl := Except.ok.inj h
    have hfree : t.name ∉ d.names := by
      rw [List.find?_eq_none] at hnew
      simpa [names, typeNames] using hnew
    have hnames : (d.names ++ [t.name]).Nodup := OrderedSet.nodup_append_singleton hn hfree
    simpa [names, typeNames] using hnames

/-- **Loading a document** adds its definitions one after the other. Besides, it may count
the document. -/
theorem load_eq_ok {path : Option String} {text : List Char} (h : d.load path text = .ok d') :
    ∃ label unnamed definitions, parseSchema text = .ok definitions ∧
      definitions.foldlM (addDefinition label) { d with unnamed := unnamed } = .ok d' := by
  unfold load at h
  cases path with
  | none =>
    dsimp only at h
    split at h
    · cases h
    next definitions hp => exact ⟨_, _, definitions, hp, h⟩
  | some path =>
    dsimp only at h
    split at h
    · cases h
    next definitions hp => exact ⟨_, d.unnamed, definitions, hp, h⟩

theorem nodup_load {path : Option String} {text : List Char} (h : d.load path text = .ok d')
    (hn : d.names.Nodup) : d'.names.Nodup := by
  obtain ⟨label, unnamed, definitions, -, hf⟩ := load_eq_ok h
  have hcounted : ({ d with unnamed := unnamed } : SchemaDraft).names.Nodup := hn
  exact Except.foldlM_keeps (p := fun d : SchemaDraft => d.names.Nodup)
    (fun _ _ _ hb h => nodup_addDefinition h hb) hcounted hf

/-- **No two types of a draft have the same name.** -/
theorem Loaded.nodup_names (h : d.Loaded) : d.names.Nodup := by
  induction h with
  | empty => exact List.nodup_nil
  | load _ hl ih => exact nodup_load hl ih

end SchemaDraft

/-! ## Schemas -/

/-- An extension keeps the names of the types. -/
theorem typeNames_applyExtension {e : LocatedExtension} {types types' : List TypeDefinition}
    (h : applyExtension e types = .ok types') : typeNames types' = typeNames types := by
  induction types generalizing types' with
  | nil => cases h
  | cons t types ih =>
    rw [applyExtension] at h
    split at h
    · split at h
      next u hu =>
        obtain rfl := Except.ok.inj h
        obtain ⟨body, -, rfl⟩ := Option.map_eq_some_iff.1 hu
        rfl
      · cases h
    · split at h
      next rest hrest =>
        obtain rfl := Except.ok.inj h
        exact congrArg (t.name :: ·) (ih hrest)
      · cases h

theorem nodup_withBuiltIns {types : List TypeDefinition} (h : (typeNames types).Nodup) :
    (typeNames (withBuiltIns types)).Nodup := by
  have hscalars : typeNames ((builtInScalars.filter fun n => (findType? types n).isNone).map
      builtInScalar) = builtInScalars.filter fun n => (findType? types n).isNone := by
    rw [typeNames, List.map_map]
    exact List.map_id _
  rw [withBuiltIns, typeNames, List.map_append, ← typeNames, ← typeNames, hscalars]
  refine List.nodup_append.2 ⟨h, List.Nodup.filter _ (by decide), ?_⟩
  intro name hname other hother
  -- a scalar is added only if its name was not found
  have hfree := findType?_eq_none.1 (Option.isNone_iff_eq_none.1 (List.mem_filter.1 hother).2)
  exact fun he => hfree (he ▸ hname)

theorem SchemaDraft.types_of_build {d : SchemaDraft} {schema : Schema} (h : d.build = .ok schema) :
    ∃ extended, d.extendedTypes = .ok extended ∧ schema.types = withBuiltIns extended := by
  rw [build] at h
  obtain ⟨extended, he, h⟩ := Except.bind_eq_ok.1 h
  refine ⟨extended, he, ?_⟩
  dsimp only at h
  split at h
  · cases h
  obtain ⟨-, -, h⟩ := Except.bind_eq_ok.1 h
  obtain ⟨-, -, h⟩ := Except.bind_eq_ok.1 h
  obtain ⟨-, -, h⟩ := Except.bind_eq_ok.1 h
  obtain rfl := Except.ok.inj h
  rfl

/-- **No two types of a schema have the same name.** -/
theorem SchemaDraft.nodup_names_of_build {d : SchemaDraft} {schema : Schema} (hd : d.Loaded)
    (h : d.build = .ok schema) : (typeNames schema.types).Nodup := by
  obtain ⟨extended, he, hs⟩ := types_of_build h
  rw [hs]
  refine nodup_withBuiltIns (Except.foldlM_keeps (p := fun types => (typeNames types).Nodup)
    (fun types e types' hn h => ?_) hd.nodup_names he)
  rwa [typeNames_applyExtension h]

end SelectionModel
