import SelectionModel.Proofs.Lowering.Built
import SelectionModel.Proofs.Merging.Complete
import SelectionModel.Proofs.Sample

/-!
# Merging built fields with themselves

Equal copies of a field are merged where one fragment is spread twice. All that was
there is there afterwards. Nothing is added exactly when the interfaces of the field
already have the fields of its selection through its own keys. An interface is lowered
like this when its fragment stands right in the selection. A fragment in another one is
reached through that one only, and merging has it inherit through the selection as well.

* `Field.MergesWithItself`: what merging a field with itself gives.
* `merge_self`: **every field of every built tree.**
* `sample_self_merge_adds`: a field that merging with itself adds a key to.
-/

namespace SelectionModel

/-- **Merging a field with itself** gives one field, which covers the field, and which
the field covers exactly when it is complete. -/
def Field.MergesWithItself (pass : Pass) (f : Field) : Prop :=
  ∃ g, mergeFields pass [f, f] = [g] ∧ g.Covers f ∧ (f.Covers g ↔ f.Complete)

theorem mergeFields_self (pass : Pass) (f : Field) :
    mergeFields pass [f, f] = [mergeFieldPair pass (mergeFields pass) f f] := by
  rw [mergeFields_eq]
  simp [groupBy, addToGroups]

theorem Field.mergesWithItself (pass : Pass) {f : Field} (ht : f.Everywhere Field.Tidy) :
    f.Everywhere (Field.MergesWithItself pass) := by
  induction f using Field.induction with
  | step f ih =>
    obtain ⟨-, hbelow⟩ := Field.everywhere_iff.1 ht
    rw [Field.everywhere_iff]
    refine ⟨⟨_, mergeFields_self pass f, ?_, Field.covers_merged_self_iff ht⟩,
      fun c hc => ih c hc (hbelow c hc)⟩
    exact mergeFieldPair_covers_left (enlarges_covers pass).grows f f

namespace Builder

variable {b : Builder}

theorem data_tidy {d : Document} {o : OperationDefinition} {op : Operation}
    (h : b.buildOperation d o = .ok op) : op.data.Everywhere Field.Tidy := by
  obtain ⟨_, _, _, _, -, hp, he⟩ := lowersPlace_data h
  rw [he, Field.everywhere_iff]
  exact ⟨⟨hp.distinctNames, hp.distinct_typeConditions⟩, tidy_invariant.forall_subfields hp⟩

theorem selectionSet_tidy {f : RegisteredFragment} {nf : NamedFragment}
    (h : b.buildNamedFragment f = .ok nf) :
    ∀ c ∈ nf.selectionSet.subfields, c.Everywhere Field.Tidy := by
  obtain ⟨_, _, hp, he⟩ := lowersPlace_selectionSet h
  rw [he]
  exact tidy_invariant.forall_subfields hp

theorem defaultSelectionSet_tidy {f : RegisteredFragment} {nf : NamedFragment}
    (h : b.buildNamedFragment f = .ok nf) :
    ∀ c ∈ nf.defaultSelectionSet.subfields, c.Everywhere Field.Tidy := by
  obtain ⟨_, _, derive, hp, he⟩ := lowersPlace_defaultSelectionSet h
  rw [he, SelectionSet.subfields_withDerivedKeys]
  exact keptByKeys_tidy.forall_map derive (tidy_invariant.forall_subfields hp)

end Builder

/-- **What merging a field with itself gives in every built tree**: in the data field of
an operation and in both selection sets of a fragment, at any depth. -/
theorem merge_self (b : Builder) (pass : Pass) :
    (∀ (d : Document) (o : OperationDefinition) (op : Operation), b.buildOperation d o = .ok op →
      op.data.Everywhere (Field.MergesWithItself pass)) ∧
    (∀ (f : RegisteredFragment) (nf : NamedFragment), b.buildNamedFragment f = .ok nf →
      (∀ c ∈ nf.selectionSet.subfields, c.Everywhere (Field.MergesWithItself pass)) ∧
        ∀ c ∈ nf.defaultSelectionSet.subfields, c.Everywhere (Field.MergesWithItself pass)) := by
  constructor
  · intro d o op h
    exact Field.mergesWithItself pass (Builder.data_tidy h)
  · intro f nf h
    constructor
    · exact fun c hc => Field.mergesWithItself pass (Builder.selectionSet_tidy h c hc)
    · exact fun c hc => Field.mergesWithItself pass (Builder.defaultSelectionSet_tidy h c hc)

/-- The operation and the fragment of the sample are built, so this holds of them. -/
theorem sample_merge_self :
    (∃ op, Sample.builder.buildOperation Sample.document Sample.operation = .ok op ∧
      op.data.Everywhere (Field.MergesWithItself ⟨Sample.schema, true⟩)) ∧
    (∃ nf, Sample.builder.buildNamedFragment Sample.fragment = .ok nf ∧
      ∀ c ∈ nf.selectionSet.subfields,
        c.Everywhere (Field.MergesWithItself ⟨Sample.schema, true⟩)) := by
  obtain ⟨op, hop⟩ := Sample.exists_operation
  obtain ⟨nf, hnf⟩ := Sample.exists_namedFragment
  obtain ⟨ho, hf⟩ := merge_self Sample.builder ⟨Sample.schema, true⟩
  exact ⟨⟨op, hop, ho _ _ _ hop⟩, ⟨nf, hnf, (hf _ _ hnf).1⟩⟩

/-- The keys of the fields in the interfaces of a field, each with the type condition
and the response name it belongs to. -/
def Field.interfaceKeys (f : Field) : List (String × String × SelectionKey) :=
  (interfacesIn f.fragments).flatMap fun i => i.fields.flatMap fun c =>
    c.keys.toList.map fun k => (i.typeCondition, c.responseName, k)

theorem Field.Covers.interfaceKeys {g f : Field} (h : g.Covers f) :
    f.interfaceKeys ⊆ g.interfaceKeys := by
  intro x hx
  simp only [Field.interfaceKeys, List.mem_flatMap, List.mem_map] at hx ⊢
  obtain ⟨i, hi, c, hc, k, hk, rfl⟩ := hx
  obtain ⟨j, hj, hji⟩ := h.interfaces i hi
  obtain ⟨d, hd, hdc⟩ := hji.fields c hc
  exact ⟨j, hj, d, hd, k, hdc.keys k hk, by rw [hji.typeCondition, hdc.responseName]⟩

/-- A field that merging with itself adds something to: the interface of `node` on `A`
stands in the one on `N`, and it inherits the key of `id` right from the selection. -/
theorem sample_self_merge_adds :
    ∃ nf, Sample.nestedBuilder.buildNamedFragment Sample.nested = .ok nf ∧
      ∃ f ∈ nf.selectionSet.fields, ∃ g, mergeFields ⟨Sample.schema, false⟩ [f, f] = [g] ∧
        ¬f.Covers g := by
  obtain ⟨nf, hnf, f, hf, hadds⟩ := Except.exists_of_any
    (x := Sample.nestedBuilder.buildNamedFragment Sample.nested)
    (p := fun nf => ∃ f ∈ nf.selectionSet.fields, ∃ g ∈ mergeFields ⟨Sample.schema, false⟩ [f, f],
      ¬g.interfaceKeys ⊆ f.interfaceKeys) (by decide +kernel)
  obtain ⟨g, hg, hnew⟩ := hadds
  rw [mergeFields_self, List.mem_singleton] at hg
  refine ⟨nf, hnf, f, hf, g, ?_, fun h => hnew h.interfaceKeys⟩
  rw [mergeFields_self, hg]

end SelectionModel
