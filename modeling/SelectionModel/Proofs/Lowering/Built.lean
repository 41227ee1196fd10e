import SelectionModel.Lowering.Definitions
import SelectionModel.Proofs.Lowering.Derivation
import SelectionModel.Proofs.Tree.Subfields

/-!
# What built definitions consist of

A definition that is built holds lowered selections: an operation below its data
field, a fragment in both of its selection sets, of which the default one has
additional keys.

* `parts_of_buildOperation`: the data field, the name and the text of an operation.
* `sets_of_buildNamedFragment`: the selection sets of a fragment.
* `failsWith_buildOperation`, `failsWith_buildNamedFragment`: what builds can fail with.
* `lowersPlace_data`, `lowersPlace_selectionSet`, `lowersPlace_defaultSelectionSet`: the
  derivations of what they hold.
-/

namespace SelectionModel

/-- The fields right below a selection set, in its selection or in a fragment of it. -/
def SelectionSet.subfields (s : SelectionSet) : List Field := subfieldsOf s.fields s.fragments

section Derived

variable (derive : SelectionKey → List SelectionKey) (s : SelectionSet)

@[simp] theorem SelectionSet.fields_withDerivedKeys :
    (s.withDerivedKeys derive).fields = s.fields.map (Field.withDerivedKeys derive) := by
  simp [SelectionSet.withDerivedKeys, fieldsWithDerivedKeys_eq_map]

@[simp] theorem SelectionSet.fragments_withDerivedKeys :
    (s.withDerivedKeys derive).fragments = s.fragments.map (Fragment.withDerivedKeys derive) := by
  simp [SelectionSet.withDerivedKeys, fragmentsWithDerivedKeys_eq_map]

theorem SelectionSet.subfields_withDerivedKeys :
    (s.withDerivedKeys derive).subfields = s.subfields.map (Field.withDerivedKeys derive) := by
  rw [subfields, fields_withDerivedKeys, fragments_withDerivedKeys, subfieldsOf_withDerivedKeys]
  rfl

end Derived

/-- The lowered selections at a place, with the object types they apply to. -/
def Place.selectionSet (schema : Schema) (place : Place) (fields : List Field)
    (fragments : List Fragment) : SelectionSet where
  fields := fields
  fragments := fragments
  possibleTypes := schema.possibleTypes place.type
  keys := place.keys
  typeCondition := place.type

theorem lowerSelectionSet_eq_ok {pass : Pass} {registry : Registry} {place : Place} {s : Selected}
    {set : SelectionSet} :
    lowerSelectionSet pass registry place s = .ok set ↔
      ∃ fields fragments, lowerPlace pass registry place s = .ok (fields, fragments) ∧
        set = place.selectionSet pass.schema fields fragments := by
  rw [lowerSelectionSet, Except.bind_eq_ok, Prod.exists]
  refine exists_congr fun fields => exists_congr fun fragments => and_congr_right fun _ => ?_
  exact ⟨fun h => (Except.ok.inj h).symm, fun h => congrArg _ h.symm⟩

namespace Builder

variable {b : Builder}

/-- The place of the selections of an operation. -/
def operationPlace (b : Builder) (o : OperationDefinition) (declared rootType : String) : Place :=
  ⟨capitalize "data", rootType,
    .singleton ((SelectionKey.ofRoot .query
      (operationModelName b.options.semanticNames o.kind declared)).child (capitalize "data"))⟩

/-- **The parts of an operation**: its data field holds its lowered selections. -/
theorem parts_of_buildOperation {d : Document} {o : OperationDefinition} {op : Operation}
    (h : b.buildOperation d o = .ok op) :
    ∃ declared rootType fields fragments, o.name = some declared ∧
      b.schema.root? o.kind = some rootType ∧
      lowerPlace ⟨b.schema, true⟩ b.registry (b.operationPlace o declared rootType)
        (Selected.ofFile d.file o.selections) = .ok (fields, fragments) ∧
      b.operationText d o declared = .ok op.sourceText ∧
      op.name = operationModelName b.options.semanticNames o.kind declared ∧
      op.rootType = rootType ∧
      op.data = dataField (d.location o.position) rootType
        (b.operationPlace o declared rootType).keys fields fragments := by
  rw [buildOperation] at h
  split at h
  -- neither is an operation without a name, nor one of a kind that the schema lacks
  · exact absurd h Except.throw_ne_ok
  · exact absurd h Except.throw_ne_ok
  next declared rootType hn hr =>
    obtain ⟨⟨fields, fragments⟩, hl, h⟩ := Except.bind_eq_ok.1 h
    obtain ⟨text, ht, h⟩ := Except.bind_eq_ok.1 h
    obtain rfl := Except.ok.inj h
    exact ⟨declared, rootType, fields, fragments, hn, hr, hl, ht, rfl, rfl, rfl⟩

/-- The place of the selections of a fragment. -/
def fragmentPlace (f : RegisteredFragment) : Place :=
  ⟨capitalize f.name, f.typeCondition, .singleton (.ofRoot .fragment (capitalize f.name))⟩

/-- **The selection sets of a fragment** hold its selections lowered twice. -/
theorem sets_of_buildNamedFragment {f : RegisteredFragment} {nf : NamedFragment}
    (h : b.buildNamedFragment f = .ok nf) :
    ∃ set default,
      lowerSelectionSet ⟨b.schema, false⟩ b.registry (fragmentPlace f) (Selected.ofDefinition f) =
        .ok set ∧
      lowerSelectionSet ⟨b.schema, true⟩ b.registry (fragmentPlace f) (Selected.ofDefinition f) =
        .ok default ∧
      nf.name = capitalize f.name ∧
      nf.defaultImplementationName = defaultImplementationName nf.name ∧
      nf.selectionSet = set ∧
      nf.defaultSelectionSet = patchSelectionSet default nf.name nf.defaultImplementationName := by
  rw [buildNamedFragment] at h
  split at h
  -- a fragment on an undefined type is not built
  · obtain ⟨_, ht, -⟩ := Except.bind_eq_ok.1 h
    exact absurd ht Except.throw_ne_ok
  obtain ⟨-, -, h⟩ := Except.bind_eq_ok.1 h
  obtain ⟨set, hs, h⟩ := Except.bind_eq_ok.1 h
  obtain ⟨default, hd, h⟩ := Except.bind_eq_ok.1 h
  obtain rfl := Except.ok.inj h
  exact ⟨set, default, hs, hd, rfl, rfl, rfl, rfl⟩

/-- **An operation fails** because of its own name or kind, where it is lowered, or where its
text is put together. -/
theorem failsWith_buildOperation {p : BuildError → Prop} {d : Document} {o : OperationDefinition}
    (hname : ∀ l, p (.anonymousOperation l)) (hkind : ∀ kind l, p (.missingRootType kind l))
    (htext : ∀ name l, p (.sourceTextUnavailable name l))
    (hlower : ∀ declared rootType, b.schema.root? o.kind = some rootType →
      Except.FailsWith p (lowerPlace ⟨b.schema, true⟩ b.registry
        (b.operationPlace o declared rootType) (Selected.ofFile d.file o.selections)))
    (hused : ∀ rootType, b.schema.root? o.kind = some rootType →
      Except.FailsWith p (usedFragments b.registry d.file o.selections)) :
    Except.FailsWith p (b.buildOperation d o) := by
  rw [buildOperation]
  split
  · exact .error (hname _)
  · exact .error (hkind _ _)
  next declared rootType hn hr =>
    refine .bind (hlower declared rootType hr) fun r _ => .bind ?_ fun text _ => .ok _
    rw [operationText]
    split
    · exact .error (htext _ _)
    · exact .bind (hused rootType hr) fun used _ => .ok _

/-- **A fragment fails** because its type is not defined, or where it is lowered. -/
theorem failsWith_buildNamedFragment {p : BuildError → Prop} {f : RegisteredFragment}
    (htype : b.schema.type? f.typeCondition = none → p (.undefinedType f.typeCondition f.location))
    (hlower : ∀ implementations, Except.FailsWith p (lowerPlace ⟨b.schema, implementations⟩
      b.registry (fragmentPlace f) (Selected.ofDefinition f))) :
    Except.FailsWith p (b.buildNamedFragment f) := by
  have hset : ∀ implementations, Except.FailsWith p (lowerSelectionSet ⟨b.schema, implementations⟩
      b.registry (fragmentPlace f) (Selected.ofDefinition f)) := by
    intro implementations
    exact .bind (hlower implementations) fun _ _ => .ok _
  rw [buildNamedFragment]
  split
  next hn => exact .error (htype (Option.isNone_iff_eq_none.1 hn))
  · exact .bind (hset false) fun _ _ => .bind (hset true) fun _ _ => .ok _

/-- **The tree of an operation** is its lowered selections, on the root type. -/
theorem lowersPlace_data {d : Document} {o : OperationDefinition} {op : Operation}
    (h : b.buildOperation d o = .ok op) :
    ∃ place fields fragments location, place.type = op.rootType ∧
      LowersPlace ⟨b.schema, true⟩ b.registry place (Selected.ofFile d.file o.selections) fields
        fragments ∧
      op.data = dataField location op.rootType place.keys fields fragments := by
  obtain ⟨declared, rootType, fields, fragments, -, -, hl, -, -, rfl, he⟩ :=
    parts_of_buildOperation h
  exact ⟨_, fields, fragments, _, rfl, lowersPlace_of_ok hl, he⟩

section Sets

variable {f : RegisteredFragment} {nf : NamedFragment} (h : b.buildNamedFragment f = .ok nf)

include h

/-- **The tree of a fragment** is its lowered selections. -/
theorem lowersPlace_selectionSet :
    ∃ fields fragments, LowersPlace ⟨b.schema, false⟩ b.registry (fragmentPlace f)
        (Selected.ofDefinition f) fields fragments ∧
      nf.selectionSet = (fragmentPlace f).selectionSet b.schema fields fragments := by
  obtain ⟨set, -, hs, -, -, -, he, -⟩ := sets_of_buildNamedFragment h
  obtain ⟨fields, fragments, hl, rfl⟩ := lowerSelectionSet_eq_ok.1 hs
  exact ⟨fields, fragments, lowersPlace_of_ok hl, he⟩

/-- The default selection set has additional keys on what is lowered with implementations. -/
theorem lowersPlace_defaultSelectionSet :
    ∃ fields fragments derive, LowersPlace ⟨b.schema, true⟩ b.registry (fragmentPlace f)
        (Selected.ofDefinition f) fields fragments ∧
      nf.defaultSelectionSet =
        ((fragmentPlace f).selectionSet b.schema fields fragments).withDerivedKeys derive := by
  obtain ⟨-, default, -, hd, -, -, -, he⟩ := sets_of_buildNamedFragment h
  obtain ⟨fields, fragments, hl, rfl⟩ := lowerSelectionSet_eq_ok.1 hd
  exact ⟨fields, fragments, _, lowersPlace_of_ok hl, he⟩

end Sets

end Builder

end SelectionModel
