import SelectionModel.Proofs.Lowering.Built
import SelectionModel.Proofs.Lowering.Invariant
import SelectionModel.Proofs.Sample

/-!
# Implementations partition the object types

At every selection of a tree that is built with implementations, these divide the
object types among them: each type has one, and it is made from the interfaces
that the type satisfies. This holds where fragments are put together. Merging puts
them together anew, and derived keys are added to every model alike.

* `partitions_assemble`: the implementations of fragments that are put together.
* `Partitions.withDerivedKeys`: what derived keys leave of a partition.
* `implementations_partition`: **every selection of every built tree.**
-/

namespace SelectionModel

/-- **The implementations among fragments partition the object types** that are
possible at their selection, by the interfaces that these satisfy. -/
structure Partitions (fragments : List Fragment) (possible : OrderedSet String)
    (keys : OrderedSet SelectionKey) : Prop where
  none_of_none : interfacesIn fragments = [] → implementationsIn fragments = []
  exhaustive : interfacesIn fragments ≠ [] → ∀ type,
    type ∈ possible ↔ ∃ m ∈ implementationsIn fragments, type ∈ m.possibleTypes
  inhabited : ∀ m ∈ implementationsIn fragments, ∃ type, type ∈ m.possibleTypes
  disjoint : (implementationsIn fragments).Pairwise fun m n =>
    ∀ type ∈ m.possibleTypes, type ∉ n.possibleTypes
  /-- The type conditions are those of the satisfied interfaces, in order. -/
  typeConditions : ∀ m ∈ implementationsIn fragments, ∀ type ∈ m.possibleTypes,
    m.typeConditions = (satisfiedBy (interfacesIn fragments) type).map Interface.typeCondition
  distinct : (implementationsIn fragments).Pairwise fun m n => m.typeConditions ≠ n.typeConditions
  keys_iff : ∀ m ∈ implementationsIn fragments, ∀ type ∈ m.possibleTypes, ∀ k,
    k ∈ m.keys ↔ k ∈ keys ∨ ∃ i ∈ satisfiedBy (interfacesIn fragments) type, k ∈ i.keys

/-- Where there are fragments, every possible type has an implementation. -/
theorem Partitions.exists_implementation {fragments : List Fragment}
    {possible : OrderedSet String} {keys : OrderedSet SelectionKey}
    (h : Partitions fragments possible keys) (hf : fragments ≠ []) {type : String}
    (ht : type ∈ possible) : ∃ m ∈ implementationsIn fragments, type ∈ m.possibleTypes := by
  refine (h.exhaustive (fun hn => ?_) type).1 ht
  have hm := h.none_of_none hn
  obtain ⟨g, hg⟩ := List.exists_mem_of_ne_nil _ hf
  cases g with
  | interface i =>
    have hi := mem_interfacesIn.2 hg
    rw [hn] at hi
    cases hi
  | implementation m =>
    have hi := mem_implementationsIn.2 hg
    rw [hm] at hi
    cases hi

/-! ## Fragments that are put together -/

section Assemble

variable {pass : Pass} {merge : List Field → List Field} {is : List Interface} {site : Site}

theorem mem_foldl_union {k : SelectionKey} {members : List Interface}
    {keys : OrderedSet SelectionKey} :
    k ∈ members.foldl (fun ks i => ks.union i.keys) keys ↔
      k ∈ keys ∨ ∃ i ∈ members, k ∈ i.keys := by
  induction members generalizing keys with
  | nil => simp
  | cons i members ih => simp [ih, or_assoc]

/-- **The implementations of fragments that are put together** partition the types
of their site. -/
theorem partitions_assemble (hp : pass.withImplementations = true)
    (hn : (is.map Interface.typeCondition).Nodup) :
    Partitions (assemble pass merge is site) site.possibleTypes site.keys := by
  have hi : interfacesIn (assemble pass merge is site) = is := interfacesIn_assemble
  have hm : implementationsIn (assemble pass merge is site) = implementations merge is site := by
    rw [implementationsIn_assemble, if_pos hp]
  constructor
  case none_of_none =>
    rw [hi, hm]
    rintro rfl
    exact implementations_nil
  case exhaustive =>
    rw [hi, hm]
    intro hne type
    constructor
    · exact exists_implementation hne
    · rintro ⟨m, hmem, ht⟩
      exact (eq_implementationOf hmem ht).1
  case inhabited =>
    rw [hm]
    exact fun m hmem => possibleTypes_ne_nil hmem
  case disjoint =>
    rw [hm]
    exact implementations_disjoint
  case typeConditions =>
    rw [hi, hm]
    intro m hmem type ht
    obtain ⟨-, types, rfl⟩ := eq_implementationOf hmem ht
    rfl
  case distinct =>
    rw [hm]
    exact implementations_distinct hn
  case keys_iff =>
    rw [hi, hm]
    intro m hmem type ht k
    obtain ⟨-, types, rfl⟩ := eq_implementationOf hmem ht
    exact mem_foldl_union

end Assemble

/-! ## Derived keys -/

/-- Keys that are joined have their derived keys joined: on both sides a key was there
or is derived from one that was. -/
theorem mem_deriveKeys_of_iff (derive : SelectionKey → List SelectionKey)
    {keys own : OrderedSet SelectionKey} {is : List Interface}
    (h : ∀ k, k ∈ keys ↔ k ∈ own ∨ ∃ i ∈ is, k ∈ i.keys) (k : SelectionKey) :
    k ∈ deriveKeys derive keys ↔
      k ∈ deriveKeys derive own ∨ ∃ i ∈ is, k ∈ deriveKeys derive i.keys := by
  simp only [mem_deriveKeys, h]
  constructor
  · rintro ((hk | ⟨i, hi, hk⟩) | ⟨l, hl | ⟨i, hi, hl⟩, hk⟩)
    · exact .inl (.inl hk)
    · exact .inr ⟨i, hi, .inl hk⟩
    · exact .inl (.inr ⟨l, hl, hk⟩)
    · exact .inr ⟨i, hi, .inr ⟨l, hl, hk⟩⟩
  · rintro ((hk | ⟨l, hl, hk⟩) | ⟨i, hi, hk | ⟨l, hl, hk⟩⟩)
    · exact .inl (.inl hk)
    · exact .inr ⟨l, .inl hl, hk⟩
    · exact .inl (.inr ⟨i, hi, hk⟩)
    · exact .inr ⟨l, .inr ⟨i, hi, hl⟩, hk⟩

theorem satisfiedBy_withDerivedKeys (derive : SelectionKey → List SelectionKey)
    (is : List Interface) (type : String) :
    satisfiedBy (is.map (Interface.withDerivedKeys derive)) type =
      (satisfiedBy is type).map (Interface.withDerivedKeys derive) := by
  rw [satisfiedBy, satisfiedBy, List.filter_map]
  rfl

/-- **Derived keys are added to the keys of a selection and its implementations
alike**, so implementations still partition the types. -/
theorem Partitions.withDerivedKeys {fragments : List Fragment} {possible : OrderedSet String}
    {keys : OrderedSet SelectionKey} (h : Partitions fragments possible keys)
    (derive : SelectionKey → List SelectionKey) :
    Partitions (fragments.map (Fragment.withDerivedKeys derive)) possible
      (deriveKeys derive keys) := by
  have hi := interfacesIn_withDerivedKeys derive fragments
  have hm := implementationsIn_withDerivedKeys derive fragments
  constructor
  case none_of_none =>
    rw [hi, hm]
    intro hn
    rw [h.none_of_none (List.map_eq_nil_iff.1 hn)]
    rfl
  case exhaustive =>
    rw [hi, hm]
    intro hne type
    rw [h.exhaustive (fun hn => hne (by rw [hn]; rfl)) type]
    simp [Implementation.withDerivedKeys]
  case inhabited =>
    rw [hm]
    intro m' hmem'
    obtain ⟨m, hmem, rfl⟩ := List.mem_map.1 hmem'
    exact h.inhabited m hmem
  case disjoint =>
    rw [hm, List.pairwise_map]
    exact h.disjoint
  case typeConditions =>
    rw [hi, hm]
    intro m' hmem' type ht
    obtain ⟨m, hmem, rfl⟩ := List.mem_map.1 hmem'
    rw [satisfiedBy_withDerivedKeys, List.map_map]
    exact h.typeConditions m hmem type ht
  case distinct =>
    rw [hm, List.pairwise_map]
    exact h.distinct
  case keys_iff =>
    rw [hi, hm]
    intro m' hmem' type ht k
    obtain ⟨m, hmem, rfl⟩ := List.mem_map.1 hmem'
    have hkeys := mem_deriveKeys_of_iff derive (h.keys_iff m hmem type ht) k
    rw [satisfiedBy_withDerivedKeys]
    simpa [Implementation.withDerivedKeys, Interface.withDerivedKeys] using hkeys

/-! ## Built trees -/

/-- The implementations of a field partition the object types of its type. -/
def Field.Partitioned (schema : Schema) (f : Field) : Prop :=
  Partitions f.fragments (schema.possibleTypes f.type.innermostName) f.keys

variable {schema : Schema} {registry : Registry}

theorem LowersPlace.partitions {place : Place} {s : Selected} {fields : List Field}
    {fragments : List Fragment} :
    LowersPlace ⟨schema, true⟩ registry place s fields fragments →
      Partitions fragments (schema.possibleTypes place.type) place.keys
  | .intro _ _ => partitions_assemble rfl nodup_typeConditions

theorem keptByKeys_partitioned : KeptByKeys (Field.Partitioned schema) := by
  intro derive f h
  have hd := Partitions.withDerivedKeys h derive
  rwa [Field.Partitioned, Field.fragments_withDerivedKeys, Field.type_withDerivedKeys,
    Field.keys_withDerivedKeys]

/-- Every merged or lowered field has implementations that partition its types. -/
theorem partitioned_invariant :
    FieldInvariant ⟨schema, true⟩ registry (Field.Everywhere (Field.Partitioned schema)) := by
  refine .everywhere keptByKeys_partitioned.inherited (fun a b _ _ => ?_) fun hl => hl.partitions
  exact partitions_assemble rfl (nodup_typeConditions_pair _ a b)

/-! ## Trees without implementations -/

/-- A field has no implementations. -/
def Field.Unimplemented (f : Field) : Prop := implementationsIn f.fragments = []

theorem LowersPlace.unimplemented {place : Place} {s : Selected} {fields : List Field}
    {fragments : List Fragment} :
    LowersPlace ⟨schema, false⟩ registry place s fields fragments → implementationsIn fragments = []
  | .intro _ _ => implementationsIn_assemble

theorem keptByKeys_unimplemented : KeptByKeys Field.Unimplemented := by
  intro derive f h
  rw [Field.Unimplemented, Field.fragments_withDerivedKeys, implementationsIn_withDerivedKeys]
  exact List.map_eq_nil_iff.2 h

/-- A pass without implementations puts none in any merged or lowered field. -/
theorem unimplemented_invariant :
    FieldInvariant ⟨schema, false⟩ registry (Field.Everywhere Field.Unimplemented) :=
  .everywhere keptByKeys_unimplemented.inherited (fun _ _ _ _ => implementationsIn_assemble)
    fun hl => hl.unimplemented

/-! ## Definitions -/

/-- The implementations of a selection set and of all fields below it partition
the object types. -/
def SelectionSet.Partitioned (schema : Schema) (s : SelectionSet) : Prop :=
  Partitions s.fragments s.possibleTypes s.keys ∧
    ∀ f ∈ s.subfields, f.Everywhere (Field.Partitioned schema)

/-- Neither a selection set nor a field below it has implementations. -/
def SelectionSet.Unimplemented (s : SelectionSet) : Prop :=
  implementationsIn s.fragments = [] ∧ ∀ f ∈ s.subfields, f.Everywhere Field.Unimplemented

theorem SelectionSet.Partitioned.withDerivedKeys {s : SelectionSet} (h : s.Partitioned schema)
    (derive : SelectionKey → List SelectionKey) :
    (s.withDerivedKeys derive).Partitioned schema := by
  constructor
  · rw [SelectionSet.fragments_withDerivedKeys]
    exact h.1.withDerivedKeys derive
  · rw [SelectionSet.subfields_withDerivedKeys]
    exact keptByKeys_partitioned.forall_map derive h.2

namespace Builder

variable {b : Builder}

/-- Everything in the data field of an operation is partitioned. -/
theorem data_partitioned {d : Document} {o : OperationDefinition} {op : Operation}
    (h : b.buildOperation d o = .ok op) : op.data.Everywhere (Field.Partitioned b.schema) := by
  obtain ⟨_, _, _, _, ht, hp, he⟩ := lowersPlace_data h
  rw [he, ← ht, Field.everywhere_iff]
  exact ⟨hp.partitions, partitioned_invariant.forall_subfields hp⟩

theorem defaultSelectionSet_partitioned {f : RegisteredFragment} {nf : NamedFragment}
    (h : b.buildNamedFragment f = .ok nf) : nf.defaultSelectionSet.Partitioned b.schema := by
  obtain ⟨_, _, derive, hp, he⟩ := lowersPlace_defaultSelectionSet h
  rw [he]
  exact SelectionSet.Partitioned.withDerivedKeys
    ⟨hp.partitions, partitioned_invariant.forall_subfields hp⟩ derive

theorem selectionSet_unimplemented {f : RegisteredFragment} {nf : NamedFragment}
    (h : b.buildNamedFragment f = .ok nf) : nf.selectionSet.Unimplemented := by
  obtain ⟨_, _, hp, he⟩ := lowersPlace_selectionSet h
  rw [he]
  exact ⟨hp.unimplemented, unimplemented_invariant.forall_subfields hp⟩

end Builder

/-- **Implementations partition the object types at every selection of every
built tree**: in the data field of an operation and in the default selection set
of a fragment, at any depth. The other selection set of a fragment has none. -/
theorem implementations_partition (b : Builder) :
    (∀ (d : Document) (o : OperationDefinition) (op : Operation), b.buildOperation d o = .ok op →
      op.data.Everywhere (Field.Partitioned b.schema)) ∧
    (∀ (f : RegisteredFragment) (nf : NamedFragment), b.buildNamedFragment f = .ok nf →
      nf.defaultSelectionSet.Partitioned b.schema ∧ nf.selectionSet.Unimplemented) := by
  constructor
  · intro d o op h
    exact Builder.data_partitioned h
  · intro f nf h
    exact ⟨Builder.defaultSelectionSet_partitioned h, Builder.selectionSet_unimplemented h⟩

/-- The operation and the fragment of the sample are built, so this holds of them. -/
theorem sample_partition :
    (∃ op, Sample.builder.buildOperation Sample.document Sample.operation = .ok op ∧
      op.data.Everywhere (Field.Partitioned Sample.schema)) ∧
    (∃ nf, Sample.builder.buildNamedFragment Sample.fragment = .ok nf ∧
      nf.defaultSelectionSet.Partitioned Sample.schema ∧ nf.selectionSet.Unimplemented) := by
  obtain ⟨op, hop⟩ := Sample.exists_operation
  obtain ⟨nf, hnf⟩ := Sample.exists_namedFragment
  obtain ⟨ho, hf⟩ := implementations_partition Sample.builder
  exact ⟨⟨op, hop, ho _ _ _ hop⟩, ⟨nf, hnf, hf _ _ hnf⟩⟩

end SelectionModel
