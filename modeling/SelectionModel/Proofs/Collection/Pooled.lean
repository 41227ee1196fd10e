import SelectionModel.Proofs.Lowering.Occurrences
import SelectionModel.Proofs.Sample

/-!
# The fields of an implementation

An interface pools all occurrences of its type condition: it has the fields of
each, and applies to an object when one of them does. So an implementation has all
that its objects collect, and besides that what is selected along occurrences that
do not apply to them but share their type condition with one that does.

* `Pooled`: the response names that come in that way.
* `implementation_names`: **the response names of an implementation.**
-/

namespace SelectionModel

/-- **A response name is pooled for an object**: it is selected along an occurrence
of a fragment that does not apply to the object, while another occurrence of the
same type condition does. -/
def Pooled (schema : Schema) (registry : Registry) (object : String) (s : TypedSelections)
    (name : String) : Prop :=
  ∃ path t path' t', Occurs registry s path t ∧ Occurs registry s path' t' ∧ t.type = t'.type ∧
    ¬Applies schema object path ∧ Applies schema object path' ∧ SelectsAlong path name

section Place

variable {schema : Schema} {registry : Registry} {pass : Pass} {place : Place} {s : Selected}
  {fields : List Field} {is : List Interface} {j : Interface} {object name : String}

theorem mem_names_mergeInterfaces (hj : j ∈ mergeInterfaces (mergeFields pass) is) :
    name ∈ j.fields.map Field.responseName ↔
      ∃ i ∈ is, i.typeCondition = j.typeCondition ∧ name ∈ i.fields.map Field.responseName := by
  refine mergeInterfaces_iff (p := fun i => name ∈ i.fields.map Field.responseName)
    (fun a b => ?_) hj
  rw [mergeInterfacePair, mem_names_mergeFields, List.map_append, List.mem_append]

theorem mem_names_implementationOf {site : Site} {members : List Interface} {types : List String} :
    name ∈ (implementationOf (mergeFields pass) site members types).fields.map Field.responseName ↔
      name ∈ site.fields.map Field.responseName ∨
        ∃ i ∈ members, name ∈ i.fields.map Field.responseName := by
  rw [implementationOf, mem_names_mergeFields, List.map_append, List.mem_append]
  simp [List.map_flatMap, List.mem_flatMap]

/-- A merged interface applies to an object with a name when it has two occurrences,
one that applies and one that selects the name, unless the selection itself does. -/
theorem exists_merged_iff (name : String)
    (hf : LowersFields pass registry place.type place.keys s s.groups fields)
    (hg : LowersFragments pass registry (place.enclosing pass fields) s s.fragments is)
    (ho : object ∈ pass.schema.possibleTypes place.type) :
    (∃ j ∈ mergeInterfaces (mergeFields pass) is, object ∈ j.possibleTypes ∧
        name ∈ j.fields.map Field.responseName) ↔
      ∃ path t path' t', Occurs registry (s.typed place.type) path t ∧
        Occurs registry (s.typed place.type) path' t' ∧ t.type = t'.type ∧
        Applies pass.schema object path' ∧
        ((s.typed place.type).Selects name ∨ SelectsAlong path name) := by
  constructor
  · rintro ⟨j, hj, ht, hn⟩
    -- the name may come from one interface and the object from another one
    obtain ⟨i, hi, hc, hn⟩ := (mem_names_mergeInterfaces hj).1 hn
    obtain ⟨i', hi', hc', ht⟩ := (mem_possibleTypes_mergeInterfaces hj).1 ht
    obtain ⟨o, hio⟩ := hg.exists_occurrence hi
    obtain ⟨o', hio'⟩ := hg.exists_occurrence hi'
    refine ⟨_, _, _, _, hio.occurs, hio'.occurs, ?_, (hio'.possible_iff.1 ht).2, ?_⟩
    · exact (hio.typeCondition.symm.trans hc).trans (hc'.symm.trans hio'.typeCondition)
    · rw [← hf.mem_names]
      exact hio.mem_names.1 hn
  · rintro ⟨_, _, _, _, ⟨o, hso, rfl, rfl⟩, ⟨o', hso', rfl, rfl⟩, he, ha, hn⟩
    obtain ⟨i, hi, hio⟩ := hg.exists_interface hso
    obtain ⟨i', hi', hio'⟩ := hg.exists_interface hso'
    obtain ⟨j, hj, hc⟩ := exists_mergeInterfaces (mergeFields pass) hi
    refine ⟨j, hj, ?_, ?_⟩
    · rw [mem_possibleTypes_mergeInterfaces hj]
      refine ⟨i', hi', ?_, hio'.possible_iff.2 ⟨ho, ha⟩⟩
      exact (hio'.typeCondition.trans he.symm).trans (hc.trans hio.typeCondition).symm
    · rw [mem_names_mergeInterfaces hj]
      refine ⟨i, hi, hc.symm, hio.mem_names.2 ?_⟩
      exact hn.imp_left hf.mem_names.2

/-- **The response names of an implementation.** -/
theorem LowersPlace.mem_names_implementation {fragments : List Fragment} {m : Implementation}
    (h : LowersPlace ⟨schema, true⟩ registry place s fields fragments)
    (hm : m ∈ implementationsIn fragments) (ht : object ∈ m.possibleTypes) :
    name ∈ m.fields.map Field.responseName ↔
      Collected schema registry object (s.typed place.type) name ∨
        Pooled schema registry object (s.typed place.type) name := by
  obtain ⟨hf, hg⟩ := h
  rw [implementationsIn_assemble, if_pos rfl] at hm
  obtain ⟨ho, types, rfl⟩ := eq_implementationOf hm ht
  have hmerged := exists_merged_iff name hf hg ho
  rw [mem_names_implementationOf, Place.site, hf.mem_names]
  simp only [mem_satisfiedBy, and_assoc]
  rw [hmerged, collected_iff]
  -- a name along an occurrence is collected or pooled, as that applies to the object or not
  constructor
  · rintro (hn | ⟨path, t, path', t', hot, hot', he, ha, hn | hn⟩)
    · exact .inl (.inl hn)
    · exact .inl (.inl hn)
    by_cases hp : Applies schema object path
    · exact .inl (.inr ⟨path, t, hot, hp, hn⟩)
    · exact .inr ⟨path, t, path', t', hot, hot', he, hp, ha, hn⟩
  · rintro ((hn | ⟨path, t, hot, ha, hn⟩) | ⟨path, t, path', t', hot, hot', he, -, ha, hn⟩)
    · exact .inl hn
    · exact .inr ⟨path, t, path, t, hot, hot, rfl, ha, .inr hn⟩
    · exact .inr ⟨path, t, path', t', hot, hot', he, ha, .inr hn⟩

end Place

/-- **An implementation has what its objects collect and what is pooled for them**,
and nothing else. -/
theorem implementation_names (schema : Schema) (registry : Registry) (place : Place) (s : Selected)
    (fields : List Field) (fragments : List Fragment)
    (h : lowerPlace ⟨schema, true⟩ registry place s = .ok (fields, fragments)) :
    ∀ m ∈ implementationsIn fragments, ∀ object ∈ m.possibleTypes, ∀ name,
      name ∈ m.fields.map Field.responseName ↔
        Collected schema registry object (s.typed place.type) name ∨
          Pooled schema registry object (s.typed place.type) name := by
  intro m hm object ht name
  exact (lowersPlace_of_ok h).mem_names_implementation hm ht

/-- The names that the implementation for `B` in the sample has. -/
theorem sample_implementation_names :
    ∃ fields fragments,
      lowerPlace ⟨Sample.schema, true⟩ Sample.registry Sample.nodePlace Sample.node =
        .ok (fields, fragments) ∧
      ∃ m ∈ implementationsIn fragments, "B" ∈ m.possibleTypes ∧
        ∀ name, name ∈ m.fields.map Field.responseName ↔
          Collected Sample.schema Sample.registry "B" (Sample.node.typed "N") name ∨
            Pooled Sample.schema Sample.registry "B" (Sample.node.typed "N") name := by
  obtain ⟨⟨fields, fragments⟩, h, m, hm, hB⟩ := Except.exists_of_any
    (x := lowerPlace ⟨Sample.schema, true⟩ Sample.registry Sample.nodePlace Sample.node)
    (p := fun r => ∃ m ∈ implementationsIn r.2, "B" ∈ m.possibleTypes) (by decide +kernel)
  refine ⟨fields, fragments, h, m, hm, hB, ?_⟩
  exact implementation_names _ _ _ _ _ _ h m hm "B" hB

namespace Sample

/-- An object of type `B` enters the selections on `B` and on `N`, and no others. -/
theorem entered_node {u : TypedSelections}
    (h : Entered schema registry "B" ⟨"N", nodeSelections⟩ u) :
    u = ⟨"N", nodeSelections⟩ ∨ u = ⟨"B", onB⟩ ∨ u = ⟨"N", [select "id" []]⟩ := by
  have hinner : TypedSelections.inner registry ⟨"N", nodeSelections⟩ =
      [⟨"A", fragment.selections⟩, ⟨"B", onB⟩, ⟨"N", [select "id" []]⟩] := rfl
  have hA : "B" ∉ schema.possibleTypes "A" := by decide +kernel
  rw [entered_iff, hinner] at h
  simp only [List.mem_cons, List.not_mem_nil, or_false] at h
  rcases h with h | ⟨t, rfl | rfl | rfl, ht, h⟩
  · exact .inl h
  · exact absurd ht hA
  · rcases entered_iff.1 h with h | ⟨v, hv, -⟩
    · exact .inr (.inl h)
    · cases hv
  · rcases entered_iff.1 h with h | ⟨v, hv, -⟩
    · exact .inr (.inr h)
    · cases hv

end Sample

/-- The implementation for `B` in the sample has the field `x`, which only the
fragment on `A` selects: that fragment has another occurrence of `N` in it. -/
theorem sample_foreign_name :
    ∃ fields fragments,
      lowerPlace ⟨Sample.schema, true⟩ Sample.registry Sample.nodePlace Sample.node =
        .ok (fields, fragments) ∧
      ∃ m ∈ implementationsIn fragments, "B" ∈ m.possibleTypes ∧
        "x" ∈ m.fields.map Field.responseName ∧
        ¬Collected Sample.schema Sample.registry "B" (Sample.node.typed "N") "x" := by
  obtain ⟨⟨fields, fragments⟩, h, m, hm, hB, hx⟩ := Except.exists_of_any
    (x := lowerPlace ⟨Sample.schema, true⟩ Sample.registry Sample.nodePlace Sample.node)
    (p := fun r => ∃ m ∈ implementationsIn r.2, "B" ∈ m.possibleTypes ∧
      "x" ∈ m.fields.map Field.responseName) (by decide +kernel)
  refine ⟨fields, fragments, h, m, hm, hB, hx, ?_⟩
  rintro ⟨u, hu, hn⟩
  rcases Sample.entered_node hu with rfl | rfl | rfl
  · exact hn rfl
  · exact hn rfl
  · exact hn rfl

end SelectionModel
