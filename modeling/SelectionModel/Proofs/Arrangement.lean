import SelectionModel.Proofs.SelfMerging

/-!
# The arrangement of built trees

The lists of a built tree are in order wherever one looks: no response name stands twice
in a list of fields, no type condition twice among interfaces, and interfaces come
before implementations. Merging, inheriting through a fragment and deriving keys each
leave a selection like this.

* `LowersPlace.arranged`, `arranged_mergeFieldPair`: what lowering and merging arrange.
* `arranged_invariant`: the selections at any depth below a place.
* `names_unique`: **the lists of every built tree.**
-/

namespace SelectionModel

/-- **A selection is arranged**: response names and type conditions are distinct, and
interfaces come first. -/
structure Arranged (fields : List Field) (fragments : List Fragment) : Prop where
  names : DistinctNames fields fragments
  typeConditions : ((interfacesIn fragments).map Interface.typeCondition).Nodup
  interfacesFirst : fragments =
    (interfacesIn fragments).map .interface ++ (implementationsIn fragments).map .implementation

/-- The selection of a field is arranged. -/
def Field.Arranged (f : Field) : Prop := SelectionModel.Arranged f.fields f.fragments

/-- A selection set is arranged, and so is the selection of every field below it. -/
def SelectionSet.Arranged (s : SelectionSet) : Prop :=
  SelectionModel.Arranged s.fields s.fragments ∧ ∀ c ∈ s.subfields, c.Everywhere Field.Arranged

theorem Arranged.withDerivedKeys {fields : List Field} {fragments : List Fragment}
    (h : Arranged fields fragments) (derive : SelectionKey → List SelectionKey) :
    Arranged (fields.map (Field.withDerivedKeys derive))
      (fragments.map (Fragment.withDerivedKeys derive)) where
  names := h.names.withDerivedKeys derive
  typeConditions := by
    rw [interfacesIn_withDerivedKeys, List.map_map]
    exact h.typeConditions
  interfacesFirst := by
    rw [interfacesIn_withDerivedKeys, implementationsIn_withDerivedKeys]
    conv_lhs => rw [h.interfacesFirst]
    simp [Function.comp_def]

theorem keptByKeys_arranged : KeptByKeys Field.Arranged := by
  intro derive f h
  rw [Field.Arranged, Field.fields_withDerivedKeys, Field.fragments_withDerivedKeys]
  exact Arranged.withDerivedKeys h derive

variable {pass : Pass} {registry : Registry}

/-- Fragments are put together with interfaces first. -/
theorem assemble_interfacesFirst {merge : List Field → List Field} {is : List Interface}
    {site : Site} :
    assemble pass merge is site =
      (interfacesIn (assemble pass merge is site)).map .interface ++
        (implementationsIn (assemble pass merge is site)).map .implementation := by
  rw [interfacesIn_assemble, implementationsIn_assemble, assemble]
  cases pass.withImplementations <;> rfl

theorem arranged_mergeFieldPair (a b : Field) :
    (mergeFieldPair pass (mergeFields pass) a b).Arranged where
  names := distinctNames_mergeFieldPair a b
  typeConditions := (tidy_mergeFieldPair a b).typeConditions
  interfacesFirst := assemble_interfacesFirst

theorem LowersPlace.arranged {place : Place} {s : Selected} {fields : List Field}
    {fragments : List Fragment} (h : LowersPlace pass registry place s fields fragments) :
    Arranged fields fragments where
  names := h.distinctNames
  typeConditions := h.distinct_typeConditions
  interfacesFirst := by
    obtain ⟨-, -⟩ := h
    exact assemble_interfacesFirst

/-- **Every merged or lowered selection is arranged**, at any depth. -/
theorem arranged_invariant : FieldInvariant pass registry (Field.Everywhere Field.Arranged) :=
  .everywhere keptByKeys_arranged.inherited (fun a b _ _ => arranged_mergeFieldPair a b)
    fun hl => hl.arranged

theorem LowersPlace.arranged_selectionSet {schema : Schema} {place : Place} {s : Selected}
    {fields : List Field} {fragments : List Fragment}
    (h : LowersPlace pass registry place s fields fragments) :
    (place.selectionSet schema fields fragments).Arranged :=
  ⟨h.arranged, arranged_invariant.forall_subfields h⟩

theorem SelectionSet.Arranged.withDerivedKeys {s : SelectionSet} (h : s.Arranged)
    (derive : SelectionKey → List SelectionKey) : (s.withDerivedKeys derive).Arranged := by
  obtain ⟨hs, hb⟩ := h
  rw [SelectionSet.Arranged, fields_withDerivedKeys, fragments_withDerivedKeys,
    subfields_withDerivedKeys]
  exact ⟨hs.withDerivedKeys derive, keptByKeys_arranged.forall_map derive hb⟩

/-- **Every built tree is arranged**: below the data field of an operation and in both
selection sets of a fragment, at any depth, no list of fields has two of one response
name, no two interfaces of a list have one type condition, and none stands behind an
implementation. -/
theorem names_unique (b : Builder) :
    (∀ (d : Document) (o : OperationDefinition) (op : Operation), b.buildOperation d o = .ok op →
      op.data.Everywhere Field.Arranged) ∧
    (∀ (f : RegisteredFragment) (nf : NamedFragment), b.buildNamedFragment f = .ok nf →
      nf.selectionSet.Arranged ∧ nf.defaultSelectionSet.Arranged) := by
  constructor
  · intro d o op h
    obtain ⟨_, _, _, _, -, hp, he⟩ := Builder.lowersPlace_data h
    rw [he]
    exact Field.everywhere_iff.2 ⟨hp.arranged, arranged_invariant.forall_subfields hp⟩
  · intro f nf h
    obtain ⟨_, _, hp, he⟩ := Builder.lowersPlace_selectionSet h
    obtain ⟨_, _, derive, hp', he'⟩ := Builder.lowersPlace_defaultSelectionSet h
    rw [he, he']
    exact ⟨hp.arranged_selectionSet, hp'.arranged_selectionSet.withDerivedKeys derive⟩

/-- The operation and the fragment of the sample are built, so this holds of them. -/
theorem sample_names_unique :
    (∃ op, Sample.builder.buildOperation Sample.document Sample.operation = .ok op ∧
      op.data.Everywhere Field.Arranged) ∧
    (∃ nf, Sample.builder.buildNamedFragment Sample.fragment = .ok nf ∧
      nf.selectionSet.Arranged ∧ nf.defaultSelectionSet.Arranged) := by
  obtain ⟨op, hop⟩ := Sample.exists_operation
  obtain ⟨nf, hnf⟩ := Sample.exists_namedFragment
  obtain ⟨ho, hf⟩ := names_unique Sample.builder
  exact ⟨⟨op, hop, ho _ _ _ hop⟩, ⟨nf, hnf, hf _ _ hnf⟩⟩

end SelectionModel
