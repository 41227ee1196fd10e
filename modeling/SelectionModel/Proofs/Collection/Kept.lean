import Mathlib.Data.Set.Insert
import SelectionModel.Proofs.Collection.Pooled
import SelectionModel.Proofs.Collection.SelectedPaths
import SelectionModel.Proofs.Names
import SelectionModel.Proofs.Partition

/-!
# No selection is lost

The model that an object of some type has in a tree is found by following response
names down, and so are the selections that such an object collects. A tree that has
all response paths of its selections has a field for everything that is collected.

A field that was merged from several ones is on the type of the first, and its
implementations are those of the objects of that type. So it has a model for an object
only if that is possible there as well.

* `Reached`: the models of a tree with the selections that are collected for them.
* `selections_kept`: **what an object collects is in its model**, at every depth of
  a built tree.
-/

namespace SelectionModel

/-! ## Models -/

/-- What a field or a selection set has below it, and the type it is on. -/
structure Model where
  type : String
  fields : List Field
  fragments : List Fragment

def Field.model (f : Field) : Model := ⟨f.type.innermostName, f.fields, f.fragments⟩

def SelectionSet.model (s : SelectionSet) : Model := ⟨s.typeCondition, s.fields, s.fragments⟩

namespace Model

/-- **The fields that a model has for an object**: those of the implementation for
it, or its own ones where there are no fragments. -/
def fieldsFor (m : Model) (object : String) : List Field :=
  if m.fragments.isEmpty then m.fields
  else
    match (implementationsIn m.fragments).find? fun i => decide (object ∈ i.possibleTypes) with
    | some i => i.fields
    | none => []

/-- An object is possible at a model, which matters where there are fragments. -/
def Allows (schema : Schema) (m : Model) (object : String) : Prop :=
  m.fragments = [] ∨ object ∈ schema.possibleTypes m.type

/-- What is known of the models of a built tree, at every depth. -/
structure Sound (schema : Schema) (m : Model) : Prop where
  implemented : m.fragments ≠ [] → ∀ object ∈ schema.possibleTypes m.type,
    ∃ i ∈ implementationsIn m.fragments, object ∈ i.possibleTypes
  distinct : DistinctNames m.fields m.fragments
  below : ∀ f ∈ subfieldsOf m.fields m.fragments,
    f.Everywhere (Field.Partitioned schema) ∧ f.Everywhere Field.DistinctNames

variable {schema : Schema} {m : Model} {object : String}

/-- The fields for an object are the model's own ones or those of a fragment. There
are none only where no implementation is for the object. -/
theorem fieldsFor_cases (m : Model) (object : String) :
    (m.fragments = [] ∧ m.fieldsFor object = m.fields) ∨
      (∃ i ∈ implementationsIn m.fragments, object ∈ i.possibleTypes ∧
        m.fieldsFor object = i.fields) ∨
      (m.fragments ≠ [] ∧ (∀ i ∈ implementationsIn m.fragments, object ∉ i.possibleTypes) ∧
        m.fieldsFor object = []) := by
  by_cases hf : m.fragments = []
  · exact .inl ⟨hf, by rw [fieldsFor, hf]; rfl⟩
  have hne : ¬m.fragments.isEmpty = true := by simpa using hf
  cases hi : (implementationsIn m.fragments).find? fun i => decide (object ∈ i.possibleTypes) with
  | some i =>
    have ho : object ∈ i.possibleTypes := by simpa using List.find?_some hi
    exact .inr (.inl ⟨i, List.mem_of_find?_eq_some hi, ho, by rw [fieldsFor, if_neg hne, hi]⟩)
  | none =>
    have ho : ∀ i ∈ implementationsIn m.fragments, object ∉ i.possibleTypes := by
      simpa using List.find?_eq_none.1 hi
    exact .inr (.inr ⟨hf, ho, by rw [fieldsFor, if_neg hne, hi]⟩)

/-- The fields for an object are offered for it, if there are any. -/
theorem offers_fieldsFor (m : Model) (object : String) :
    Offers m.fields m.fragments object (m.fieldsFor object) ∨
      (m.fragments ≠ [] ∧ (∀ i ∈ implementationsIn m.fragments, object ∉ i.possibleTypes) ∧
        m.fieldsFor object = []) := by
  rcases m.fieldsFor_cases object with ⟨hf, he⟩ | ⟨i, hi, ho, he⟩ | h
  · have hs : Offers m.fields [] object (sourcesFor m.fields (interfacesIn []) object) := .sources
    left
    rw [he, hf]
    simpa [sourcesFor, satisfiedBy] using hs
  · left
    rw [he]
    exact .implementation hi ho
  · exact .inr h

theorem offers_of_mem {f : Field} (h : f ∈ m.fieldsFor object) :
    Offers m.fields m.fragments object (m.fieldsFor object) := by
  refine (m.offers_fieldsFor object).resolve_right fun hn => ?_
  rw [hn.2.2] at h
  cases h

theorem offers_of_allows (hs : m.Sound schema) (ha : m.Allows schema object) :
    Offers m.fields m.fragments object (m.fieldsFor object) := by
  refine (m.offers_fieldsFor object).resolve_right fun hn => ?_
  obtain ⟨i, hi, ho⟩ := hs.implemented hn.1 object (ha.resolve_left hn.1)
  exact hn.2.1 i hi ho

theorem nodup_fieldsFor (hs : m.Sound schema) (object : String) :
    ((m.fieldsFor object).map Field.responseName).Nodup := by
  rcases m.fieldsFor_cases object with ⟨-, he⟩ | ⟨i, hi, -, he⟩ | ⟨-, -, he⟩
  · rw [he]
    exact hs.distinct.own
  · rw [he]
    exact hs.distinct.fragment _ (mem_implementationsIn.1 hi)
  · rw [he]
    exact List.Pairwise.nil

theorem fieldsFor_subset {f : Field} (h : f ∈ m.fieldsFor object) :
    f ∈ subfieldsOf m.fields m.fragments := by
  rcases m.fieldsFor_cases object with ⟨-, he⟩ | ⟨i, hi, -, he⟩ | ⟨-, -, he⟩
  · rw [he] at h
    exact mem_subfieldsOf.2 (.inl h)
  · rw [he] at h
    exact mem_subfieldsOf.2 (.inr ⟨_, mem_implementationsIn.1 hi, h⟩)
  · rw [he] at h
    cases h

theorem sound_field {f : Field} (hp : f.Everywhere (Field.Partitioned schema))
    (hd : f.Everywhere Field.DistinctNames) : f.model.Sound schema := by
  obtain ⟨hpf, hpb⟩ := Field.everywhere_iff.1 hp
  obtain ⟨hdf, hdb⟩ := Field.everywhere_iff.1 hd
  exact ⟨fun hf object ho => Partitions.exists_implementation hpf hf ho, hdf,
    fun c hc => ⟨hpb c hc, hdb c hc⟩⟩

theorem sound_selectionSet {s : SelectionSet} (hp : s.Partitioned schema)
    (ht : s.possibleTypes = schema.possibleTypes s.typeCondition)
    (hd : DistinctNames s.fields s.fragments)
    (hb : ∀ f ∈ s.subfields, f.Everywhere Field.DistinctNames) : s.model.Sound schema := by
  obtain ⟨hpart, hpb⟩ := hp
  rw [ht] at hpart
  exact ⟨fun hf object ho => hpart.exists_implementation hf ho, hd,
    fun f hf => ⟨hpb f hf, hb f hf⟩⟩

end Model

/-! ## Reached models -/

/-- **The models of a tree with the selections that are collected for them**: below
the root, response names are followed for objects that are possible for all of these
selections. -/
inductive Reached (schema : Schema) (registry : Registry) (root : Model) (start : TypedSelections) :
    Model → Set TypedSelections → Prop where
  | root : Reached schema registry root start root {start}
  | followed {m : Model} {collected : Set TypedSelections} {object : String} {f : Field} :
    Reached schema registry root start m collected →
    (∀ s ∈ collected, object ∈ schema.possibleTypes s.type) → f ∈ m.fieldsFor object →
    Reached schema registry root start f.model
      {t | ∃ s ∈ collected, CollectedBelow schema registry object s f.responseName t}

/-- **No selection is lost** in a tree: what an object collects is in the model for
it, wherever that is. -/
def Kept (schema : Schema) (registry : Registry) (root : Model) (start : TypedSelections) : Prop :=
  ∀ (m : Model) (collected : Set TypedSelections), Reached schema registry root start m collected →
    ∀ object, m.Allows schema object → (∀ s ∈ collected, object ∈ schema.possibleTypes s.type) →
      ∀ s ∈ collected, ∀ name, Collected schema registry object s name →
        name ∈ (m.fieldsFor object).map Field.responseName

section Reached

variable {schema : Schema} {registry : Registry} {root : Model} {start : TypedSelections}

theorem TypedSelections.selects_of_below {s t : TypedSelections} {name : String}
    (h : s.below? schema name = some t) : s.Selects name := by
  intro hn
  rw [below?, hn] at h
  cases h

/-- **A reached model has all response paths of its selections**, if the root does. -/
theorem Reached.hasPath {m : Model} {collected : Set TypedSelections}
    (h : Reached schema registry root start m collected) (hs : root.Sound schema)
    (hp : ∀ path, SelectsPath schema registry path start →
      HasPath path root.fields root.fragments) :
    m.Sound schema ∧ ∀ s ∈ collected, ∀ path, SelectsPath schema registry path s →
      HasPath path m.fields m.fragments := by
  induction h with
  | root =>
    refine ⟨hs, fun s h path => ?_⟩
    obtain rfl := Set.mem_singleton_iff.1 h
    exact hp path
  | @followed m collected object f _ ho hf ih =>
    obtain ⟨hsound, hpaths⟩ := ih
    obtain ⟨hpf, hdf⟩ := hsound.below f (Model.fieldsFor_subset hf)
    refine ⟨Model.sound_field hpf hdf, ?_⟩
    rintro t ⟨s, hsc, u, hu, hb⟩ path hpath
    have hstep : SelectsPath schema registry (⟨object, f.responseName⟩ :: path) s :=
      ⟨ho s hsc, u, hu, u.selects_of_below hb, .inr ⟨t, hb, hpath⟩⟩
    obtain ⟨c, hc, hn, hcp⟩ := hpaths s hsc _ hstep _ (Model.offers_of_mem hf)
    -- the name stands once, so the field with the path is the one that is followed
    obtain rfl := List.inj_on_of_nodup_map (Model.nodup_fieldsFor hsound object) hc hf hn
    exact hcp

/-- No selection is lost in a tree that has all response paths. -/
theorem kept_of_hasPath (hs : root.Sound schema)
    (hp : ∀ path, SelectsPath schema registry path start →
      HasPath path root.fields root.fragments) : Kept schema registry root start := by
  intro m collected hm object ha ho s hsc name hn
  obtain ⟨hsound, hpaths⟩ := hm.hasPath hs hp
  obtain ⟨u, hu, hn⟩ := hn
  -- what is collected is a path of one step
  have hstep : SelectsPath schema registry [⟨object, name⟩] s := ⟨ho s hsc, u, hu, hn, .inl rfl⟩
  obtain ⟨f, hf, rfl, -⟩ := hpaths s hsc _ hstep _ (Model.offers_of_allows hsound ha)
  exact List.mem_map_of_mem hf

end Reached

/-! ## Definitions -/

namespace Builder

variable {b : Builder}

theorem kept_operation {d : Document} {o : OperationDefinition} {op : Operation}
    (h : b.buildOperation d o = .ok op) :
    Kept b.schema b.registry op.data.model ⟨op.rootType, o.selections⟩ := by
  obtain ⟨_, _, _, _, ht, hp, he⟩ := lowersPlace_data h
  have hd : op.data.Everywhere Field.DistinctNames := by
    rw [he, Field.everywhere_iff]
    exact ⟨hp.distinctNames, distinctNames_invariant.forall_subfields hp⟩
  refine kept_of_hasPath (Model.sound_field (data_partitioned h) hd) fun path hpath => ?_
  rw [he]
  rw [← ht] at hpath
  exact hp.hasPath hpath

theorem kept_defaultSelectionSet {f : RegisteredFragment} {nf : NamedFragment}
    (h : b.buildNamedFragment f = .ok nf) :
    Kept b.schema b.registry nf.defaultSelectionSet.model ⟨f.typeCondition, f.selections⟩ := by
  have hpart := defaultSelectionSet_partitioned h
  obtain ⟨_, _, derive, hp, he⟩ := lowersPlace_defaultSelectionSet h
  -- what is lowered has distinct names and all paths, and the additional keys change neither
  have hb : ∀ c ∈ nf.defaultSelectionSet.subfields, c.Everywhere Field.DistinctNames := by
    rw [he, SelectionSet.subfields_withDerivedKeys]
    exact keptByKeys_distinctNames.forall_map derive (distinctNames_invariant.forall_subfields hp)
  have hdist : DistinctNames nf.defaultSelectionSet.fields nf.defaultSelectionSet.fragments := by
    rw [he, SelectionSet.fields_withDerivedKeys, SelectionSet.fragments_withDerivedKeys]
    exact hp.distinctNames.withDerivedKeys derive
  have ht : nf.defaultSelectionSet.possibleTypes =
      b.schema.possibleTypes nf.defaultSelectionSet.typeCondition := by
    rw [he]
    rfl
  refine kept_of_hasPath (Model.sound_selectionSet hpart ht hdist hb) fun path hpath => ?_
  rw [SelectionSet.model, he, SelectionSet.fields_withDerivedKeys,
    SelectionSet.fragments_withDerivedKeys]
  exact (hp.hasPath hpath).withDerivedKeys derive

end Builder

/-- **What an object collects is in its model**, at every depth of every built tree:
in the data field of an operation and in the default selection set of a fragment. -/
theorem selections_kept (b : Builder) :
    (∀ (d : Document) (o : OperationDefinition) (op : Operation), b.buildOperation d o = .ok op →
      Kept b.schema b.registry op.data.model ⟨op.rootType, o.selections⟩) ∧
    (∀ (f : RegisteredFragment) (nf : NamedFragment), b.buildNamedFragment f = .ok nf →
      Kept b.schema b.registry nf.defaultSelectionSet.model ⟨f.typeCondition, f.selections⟩) := by
  constructor
  · intro d o op h
    exact Builder.kept_operation h
  · intro f nf h
    exact Builder.kept_defaultSelectionSet h

/-- The operation and the fragment of the sample keep their selections. -/
theorem sample_kept :
    (∃ op, Sample.builder.buildOperation Sample.document Sample.operation = .ok op ∧
      Kept Sample.schema Sample.registry op.data.model ⟨op.rootType, Sample.operation.selections⟩) ∧
    (∃ nf, Sample.builder.buildNamedFragment Sample.fragment = .ok nf ∧
      Kept Sample.schema Sample.registry nf.defaultSelectionSet.model
        ⟨Sample.fragment.typeCondition, Sample.fragment.selections⟩) := by
  obtain ⟨op, hop⟩ := Sample.exists_operation
  obtain ⟨nf, hnf⟩ := Sample.exists_namedFragment
  obtain ⟨ho, hf⟩ := selections_kept Sample.builder
  exact ⟨⟨op, hop, ho _ _ _ hop⟩, ⟨nf, hnf, hf _ _ hnf⟩⟩

namespace Sample

/-- What is below `node` for the root object. -/
theorem collectedBelow_root {t : TypedSelections} :
    CollectedBelow schema registry "Query" ⟨"Query", operation.selections⟩ "node" t ↔
      t = ⟨"N", nodeSelections⟩ := by
  constructor
  · rintro ⟨u, hu, ht⟩
    rcases entered_iff.1 hu with rfl | ⟨v, hv, -⟩
    · exact (Option.some.inj ht).symm
    · cases hv
  · rintro rfl
    exact ⟨_, .here, rfl⟩

/-- What is below `f` for an object of type `B` on `node`. -/
theorem collectedBelow_node {t : TypedSelections} :
    CollectedBelow schema registry "B" ⟨"N", nodeSelections⟩ "f" t ↔
      t = ⟨"Y", [on "Y" [select "b" []]]⟩ := by
  constructor
  · rintro ⟨u, hu, ht⟩
    rcases entered_node hu with rfl | rfl | rfl
    · cases ht
    · exact (Option.some.inj ht).symm
    · cases ht
  · rintro rfl
    refine ⟨⟨"B", onB⟩, ?_, rfl⟩
    exact .inside (List.mem_of_getElem? (i := 1) rfl) (by decide +kernel) .here

end Sample

/-- What objects of type `B` collect on `f` in the sample is selected on `Y`, but the
field they have there is on `X`: it was merged from that of `A` first. So an object
of type `Y` loses `b`. -/
theorem sample_lost_selection :
    ∃ op, Sample.builder.buildOperation Sample.document Sample.operation = .ok op ∧
      ∃ m collected, Reached Sample.schema Sample.registry op.data.model
          ⟨op.rootType, Sample.operation.selections⟩ m collected ∧
        (∀ s ∈ collected, "Y" ∈ Sample.schema.possibleTypes s.type) ∧
        ∃ s ∈ collected, Collected Sample.schema Sample.registry "Y" s "b" ∧
          "b" ∉ (m.fieldsFor "Y").map Field.responseName := by
  obtain ⟨op, hop, hroot, node, hnode, hnodeName, f, hf, hfName, hb⟩ :=
    Except.exists_of_any
      (x := Sample.builder.buildOperation Sample.document Sample.operation)
      (p := fun op => op.rootType = "Query" ∧
        ∃ node ∈ op.data.model.fieldsFor "Query", node.responseName = "node" ∧
          ∃ f ∈ node.model.fieldsFor "B", f.responseName = "f" ∧
            "b" ∉ (f.model.fieldsFor "Y").map Field.responseName) (by decide +kernel)
  have hQuery : "Query" ∈ Sample.schema.possibleTypes "Query" := by decide +kernel
  have hB : "B" ∈ Sample.schema.possibleTypes "N" := by decide +kernel
  have hY : "Y" ∈ Sample.schema.possibleTypes "Y" := by decide +kernel
  -- down the response names `node` and `f`, on objects of type `Query` and `B`
  have hatRoot : Reached Sample.schema Sample.registry op.data.model
      ⟨op.rootType, Sample.operation.selections⟩ _ _ := .root
  have hatNode := hatRoot.followed (by simpa [hroot] using hQuery) hnode
  simp only [Set.mem_singleton_iff, exists_eq_left, hroot, hnodeName, Sample.collectedBelow_root,
    Set.ofPred_eq_eq_singleton] at hatNode
  have hatF := hatNode.followed (by simpa using hB) hf
  simp only [Set.mem_singleton_iff, exists_eq_left, hfName, Sample.collectedBelow_node,
    Set.ofPred_eq_eq_singleton] at hatF
  rw [← hroot] at hatF
  -- an object of type `Y` enters the fragment on its type there, which selects `b`
  refine ⟨op, hop, _, _, hatF, by simpa using hY, _, Set.mem_singleton _, ?_, hb⟩
  refine ⟨⟨"Y", [Sample.select "b" []]⟩, .inside (List.mem_of_getElem? (i := 0) rfl) hY .here, ?_⟩
  exact List.cons_ne_nil _ _

end SelectionModel
