import SelectionModel.Proofs.Lowering.Built
import SelectionModel.Proofs.Lowering.Growth
import SelectionModel.Proofs.Lowering.Invariant
import SelectionModel.Proofs.Merging.Covering
import SelectionModel.Proofs.Sample

/-!
# Fragments cover their selection

An interface has the fields that its selection had when it was lowered. When two
copies of a field are merged later, their interfaces have to take over what the other
copy has, at every depth. So a fragment can stand in for its selection everywhere in
a built tree, and an implementation for the interfaces it was made from.

* `LowersPlace.fragmentsCover`: the fragments at a place.
* `fragmentsCover_invariant`: those of every merged or lowered field.
* `fragments_cover`: **every selection of every built tree.**
-/

namespace SelectionModel

variable {pass : Pass} {registry : Registry}

/-! ## Lowered selections -/

/-- **The fragments at a place cover its selection.** -/
theorem LowersPlace.fragmentsCover {place : Place} {s : Selected} {fields : List Field}
    {fragments : List Fragment} (h : LowersPlace pass registry place s fields fragments) :
    FragmentsCover fields fragments := by
  obtain ⟨-, hg⟩ := h
  have hm := (enlarges_covers pass).grows
  refine fragmentsCover_assemble (place.site pass fields) hm nodup_typeConditions ?_
  refine mergeInterfaces_forall (p := fun i => CoversFields i.fields fields)
    (fun a b ha _ => (hm.left _ _).trans ha) fun i hi => ?_
  obtain ⟨o, ho⟩ := hg.exists_occurrence hi
  exact ho.supplies_around (enlarges_covers pass)

/-- **The fragments of every merged or lowered field** cover its selection. -/
theorem fragmentsCover_invariant :
    FieldInvariant pass registry (Field.Everywhere Field.FragmentsCover) :=
  .everywhere keptByKeys_fragmentsCover.inherited
    (fun a b _ _ => fragmentsCover_mergeFieldPair (enlarges_covers pass).grows a b)
    fun hl => hl.fragmentsCover

/-! ## Definitions -/

/-- The fragments of a selection set and of all fields below it cover their selection. -/
def SelectionSet.FragmentsCover (s : SelectionSet) : Prop :=
  SelectionModel.FragmentsCover s.fields s.fragments ∧
    ∀ f ∈ s.subfields, f.Everywhere Field.FragmentsCover

theorem SelectionSet.FragmentsCover.withDerivedKeys {s : SelectionSet} (h : s.FragmentsCover)
    (derive : SelectionKey → List SelectionKey) : (s.withDerivedKeys derive).FragmentsCover := by
  constructor
  · rw [SelectionSet.fields_withDerivedKeys, SelectionSet.fragments_withDerivedKeys]
    exact h.1.withDerivedKeys derive
  · rw [SelectionSet.subfields_withDerivedKeys]
    exact keptByKeys_fragmentsCover.forall_map derive h.2

namespace Builder

variable {b : Builder}

theorem data_fragmentsCover {d : Document} {o : OperationDefinition} {op : Operation}
    (h : b.buildOperation d o = .ok op) : op.data.Everywhere Field.FragmentsCover := by
  obtain ⟨_, _, _, _, -, hp, he⟩ := lowersPlace_data h
  rw [he, Field.everywhere_iff]
  exact ⟨hp.fragmentsCover, fragmentsCover_invariant.forall_subfields hp⟩

theorem selectionSet_fragmentsCover {f : RegisteredFragment} {nf : NamedFragment}
    (h : b.buildNamedFragment f = .ok nf) : nf.selectionSet.FragmentsCover := by
  obtain ⟨_, _, hp, he⟩ := lowersPlace_selectionSet h
  rw [he]
  exact ⟨hp.fragmentsCover, fragmentsCover_invariant.forall_subfields hp⟩

theorem defaultSelectionSet_fragmentsCover {f : RegisteredFragment} {nf : NamedFragment}
    (h : b.buildNamedFragment f = .ok nf) : nf.defaultSelectionSet.FragmentsCover := by
  obtain ⟨_, _, derive, hp, he⟩ := lowersPlace_defaultSelectionSet h
  rw [he]
  exact SelectionSet.FragmentsCover.withDerivedKeys
    ⟨hp.fragmentsCover, fragmentsCover_invariant.forall_subfields hp⟩ derive

end Builder

/-- **Every fragment covers its selection in every built tree**: in the data field of
an operation and in both selection sets of a fragment, at any depth. -/
theorem fragments_cover (b : Builder) :
    (∀ (d : Document) (o : OperationDefinition) (op : Operation), b.buildOperation d o = .ok op →
      op.data.Everywhere Field.FragmentsCover) ∧
    (∀ (f : RegisteredFragment) (nf : NamedFragment), b.buildNamedFragment f = .ok nf →
      nf.selectionSet.FragmentsCover ∧ nf.defaultSelectionSet.FragmentsCover) := by
  constructor
  · intro d o op h
    exact Builder.data_fragmentsCover h
  · intro f nf h
    exact ⟨Builder.selectionSet_fragmentsCover h, Builder.defaultSelectionSet_fragmentsCover h⟩

/-- The operation and the fragment of the sample are built, so this holds of them. -/
theorem sample_fragments_cover :
    (∃ op, Sample.builder.buildOperation Sample.document Sample.operation = .ok op ∧
      op.data.Everywhere Field.FragmentsCover) ∧
    (∃ nf, Sample.builder.buildNamedFragment Sample.fragment = .ok nf ∧
      nf.selectionSet.FragmentsCover ∧ nf.defaultSelectionSet.FragmentsCover) := by
  obtain ⟨op, hop⟩ := Sample.exists_operation
  obtain ⟨nf, hnf⟩ := Sample.exists_namedFragment
  obtain ⟨ho, hf⟩ := fragments_cover Sample.builder
  exact ⟨⟨op, hop, ho _ _ _ hop⟩, ⟨nf, hnf, hf _ _ hnf⟩⟩

end SelectionModel
