import SelectionModel.Proofs.Lowering.Invariant
import SelectionModel.Proofs.Lowering.Occurrences

/-!
# Distinct response names

Every list of fields in a lowered tree was grouped by response name, either when
it was lowered or when it was merged, and interfaces were grouped by type condition.
Derived keys leave both as they are.

* `distinctNames_assemble`: the lists of fields of fragments that are put together.
* `distinctNames_invariant`: **the lists at any depth of a lowered tree.**
* `tidy_invariant`: names and type conditions at any depth.
-/

namespace SelectionModel

/-- **Each response name stands once** in the fields of a selection, and once in
those of each of its fragments. -/
structure DistinctNames (fields : List Field) (fragments : List Fragment) : Prop where
  own : (fields.map Field.responseName).Nodup
  fragment : ∀ g ∈ fragments, (g.fields.map Field.responseName).Nodup

/-- Each response name stands once in each list of fields right below a field. -/
def Field.DistinctNames (f : Field) : Prop := SelectionModel.DistinctNames f.fields f.fragments

theorem map_responseName_withDerivedKeys (derive : SelectionKey → List SelectionKey)
    (fs : List Field) :
    (fs.map (Field.withDerivedKeys derive)).map Field.responseName = fs.map Field.responseName := by
  rw [List.map_map]
  exact List.map_congr_left fun f _ => Field.responseName_withDerivedKeys derive f

theorem DistinctNames.withDerivedKeys {fields : List Field} {fragments : List Fragment}
    (h : DistinctNames fields fragments) (derive : SelectionKey → List SelectionKey) :
    DistinctNames (fields.map (Field.withDerivedKeys derive))
      (fragments.map (Fragment.withDerivedKeys derive)) where
  own := by
    rw [map_responseName_withDerivedKeys]
    exact h.own
  fragment := by
    intro g' hg'
    obtain ⟨g, hg, rfl⟩ := List.mem_map.1 hg'
    rw [Fragment.fields_withDerivedKeys, map_responseName_withDerivedKeys]
    exact h.fragment g hg

theorem keptByKeys_distinctNames : KeptByKeys Field.DistinctNames := by
  intro derive f h
  rw [Field.DistinctNames, Field.fields_withDerivedKeys, Field.fragments_withDerivedKeys]
  exact DistinctNames.withDerivedKeys h derive

variable {pass : Pass} {registry : Registry} {is : List Interface}

/-- **Fragments that are put together** have distinct names if their interfaces do. -/
theorem distinctNames_assemble (site : Site) (hs : (site.fields.map Field.responseName).Nodup)
    (hi : ∀ i ∈ is, (i.fields.map Field.responseName).Nodup) :
    DistinctNames site.fields (assemble pass (mergeFields pass) is site) where
  own := hs
  fragment := by
    intro g hg
    rcases mem_assemble hg with ⟨i, h, rfl⟩ | ⟨m, h, rfl⟩
    · exact hi i h
    · obtain ⟨type, ht⟩ := possibleTypes_ne_nil h
      obtain ⟨-, _, rfl⟩ := eq_implementationOf h ht
      exact nodup_names_mergeFields _

theorem nodup_names_mergeInterfaces (h : ∀ i ∈ is, (i.fields.map Field.responseName).Nodup) :
    ∀ j ∈ mergeInterfaces (mergeFields pass) is, (j.fields.map Field.responseName).Nodup :=
  mergeInterfaces_forall (p := fun i => (i.fields.map Field.responseName).Nodup)
    (fun _ _ _ _ => nodup_names_mergeFields _) h

theorem distinctNames_mergeFieldPair (a b : Field) :
    (mergeFieldPair pass (mergeFields pass) a b).DistinctNames := by
  refine distinctNames_assemble (pairSite pass (mergeFields pass) a b)
    (nodup_names_mergeFields _) fun i hi => ?_
  obtain ⟨j, -, rfl⟩ := List.mem_map.1 hi
  exact nodup_names_mergeFields _

theorem InterfaceOf.nodup_names {around : Enclosing} {s : Selected} {o : Occurrence}
    {i : Interface} (h : InterfaceOf pass registry around s o i) :
    (i.fields.map Field.responseName).Nodup := by
  induction h with
  | here hl =>
    cases hl
    exact nodup_names_mergeFields _
  | inside _ _ ih => exact ih

theorem LowersPlace.distinctNames {place : Place} {s : Selected} {fields : List Field}
    {fragments : List Fragment} (h : LowersPlace pass registry place s fields fragments) :
    DistinctNames fields fragments := by
  obtain ⟨hf, hg⟩ := h
  refine distinctNames_assemble (place.site pass fields) hf.nodup_names
    (nodup_names_mergeInterfaces fun i hi => ?_)
  obtain ⟨o, ho⟩ := hg.exists_occurrence hi
  exact ho.nodup_names

/-- **Names are distinct in every merged or lowered field**, at any depth. -/
theorem distinctNames_invariant :
    FieldInvariant pass registry (Field.Everywhere Field.DistinctNames) :=
  .everywhere keptByKeys_distinctNames.inherited
    (fun a b _ _ => distinctNames_mergeFieldPair a b) fun hl => hl.distinctNames

/-! ## Distinct type conditions -/

/-- **Nothing stands twice right below a field**: no response name in a list of fields
and no type condition among its interfaces. -/
structure Field.Tidy (f : Field) : Prop where
  names : f.DistinctNames
  typeConditions : ((interfacesIn f.fragments).map Interface.typeCondition).Nodup

theorem keptByKeys_tidy : KeptByKeys Field.Tidy := by
  intro derive f h
  refine ⟨keptByKeys_distinctNames derive f h.names, ?_⟩
  rw [Field.fragments_withDerivedKeys, interfacesIn_withDerivedKeys, List.map_map]
  exact h.typeConditions

theorem tidy_mergeFieldPair (a b : Field) : (mergeFieldPair pass (mergeFields pass) a b).Tidy where
  names := distinctNames_mergeFieldPair a b
  typeConditions := by
    rw [interfacesIn_mergeFieldPair]
    exact nodup_typeConditions_pair _ a b

theorem LowersPlace.distinct_typeConditions {place : Place} {s : Selected} {fields : List Field}
    {fragments : List Fragment} (h : LowersPlace pass registry place s fields fragments) :
    ((interfacesIn fragments).map Interface.typeCondition).Nodup := by
  obtain ⟨-, -⟩ := h
  rw [interfacesIn_assemble]
  exact nodup_typeConditions

/-- **Every merged or lowered field is tidy**, at any depth. -/
theorem tidy_invariant : FieldInvariant pass registry (Field.Everywhere Field.Tidy) :=
  .everywhere keptByKeys_tidy.inherited (fun a b _ _ => tidy_mergeFieldPair a b) fun hl =>
    ⟨hl.distinctNames, hl.distinct_typeConditions⟩

end SelectionModel
