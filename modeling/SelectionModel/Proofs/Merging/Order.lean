import SelectionModel.Proofs.Merging.Depth
import SelectionModel.Proofs.Tree.Order

/-!
# Merging and the order of fields

What merging gives depends on the order of the merged fields only in its own order. This
is shown for any form of lists of fields that all steps of merging respect, of which the
sorted list is one.

* `Respects`: a merging gives the same, up to a form, for lists of the same form.
* `map_mergeInterfaces_congr`, `map_assemble_congr`, `mapBelow_mergeFieldPair_congr`:
  interfaces, fragments and pairs of fields, given such a merging of the fields below.
* `respects_sortFields`: **merging respects the order of fields.**
-/

namespace SelectionModel

/-- **A merging of fields respects a form of lists** if it gives lists of the same form for
lists of the same form, as do the other steps that put fields together. -/
structure Respects (merge form : List Field → List Field) : Prop where
  append : ∀ {fs fs' gs gs' : List Field}, form fs = form fs' → form gs = form gs' →
    form (fs ++ gs) = form (fs' ++ gs')
  inherit : ∀ {fs fs' : List Field} (rebased : List (SelectionKey × SelectionKey)),
    form fs = form fs' → form (inheritFields fs rebased) = form (inheritFields fs' rebased)
  merge : ∀ {fs fs' : List Field}, form fs = form fs' → form (merge fs) = form (merge fs')

/-- Every merging respects lists as they are. -/
theorem respects_id (merge : List Field → List Field) : Respects merge id where
  append hf hg := congrArg₂ (· ++ ·) hf hg
  inherit rebased h := congrArg (inheritFields · rebased) h
  merge h := congrArg merge h

variable {pass : Pass} {merge form : List Field → List Field}

section Congruence

variable {is js : List Interface}

theorem mapFields_mergeInterfacePair_congr (h : Respects merge form) (i i' j j' : Interface)
    (hi : i.mapFields form = i'.mapFields form) (hj : j.mapFields form = j'.mapFields form) :
    (mergeInterfacePair merge i j).mapFields form =
      (mergeInterfacePair merge i' j').mapFields form := by
  obtain ⟨fields, hf, rfl⟩ := Interface.exists_of_mapFields_eq hi
  obtain ⟨fields', hf', rfl⟩ := Interface.exists_of_mapFields_eq hj
  have hm := h.merge (h.append hf hf')
  simp only [Interface.mapFields, mergeInterfacePair, hm]

/-- Interfaces of the same form are merged to interfaces of the same form. -/
theorem map_mergeInterfaces_congr (h : Respects merge form)
    (hm : is.map (Interface.mapFields form) = js.map (Interface.mapFields form)) :
    (mergeInterfaces merge is).map (Interface.mapFields form) =
      (mergeInterfaces merge js).map (Interface.mapFields form) := by
  have hk : ∀ i : Interface, (i.mapFields form).typeCondition = i.typeCondition := fun _ => rfl
  have hg : (groupBy Interface.typeCondition is).map (Group.map (Interface.mapFields form)) =
      (groupBy Interface.typeCondition js).map (Group.map (Interface.mapFields form)) := by
    rw [← groupBy_map hk, ← groupBy_map hk, hm]
  rw [mergeInterfaces, mergeInterfaces, List.map_map, List.map_map]
  refine map_eq_of_map_eq (fun g g' he => ?_) hg
  obtain ⟨-, hfirst, hothers⟩ := Group.mk.inj he
  exact foldl_eq_of_map_eq (mapFields_mergeInterfacePair_congr h) hfirst hothers

/-- The same object types satisfy interfaces of the same form. -/
theorem satisfied_mapFields (form : List Field → List Field) (is : List Interface) :
    satisfied (is.map (Interface.mapFields form)) = satisfied is := by
  funext type
  rw [satisfied, satisfied, List.length_map]
  refine List.filter_congr fun n _ => ?_
  rw [List.getElem?_map]
  cases is[n]? <;> rfl

theorem form_flatMap_fields (h : Respects merge form)
    (hm : is.map (Interface.mapFields form) = js.map (Interface.mapFields form)) :
    form (is.flatMap Interface.fields) = form (js.flatMap Interface.fields) := by
  induction is generalizing js with
  | nil => rw [List.map_eq_nil_iff.1 hm.symm]
  | cons i is ih =>
    obtain ⟨j, js, rfl⟩ : ∃ j js', js = j :: js' := by
      cases js with
      | nil => cases hm
      | cons j js => exact ⟨j, js, rfl⟩
    obtain ⟨hi, his⟩ := List.cons.inj hm
    obtain ⟨fields, hf, rfl⟩ := Interface.exists_of_mapFields_eq hi
    exact h.append hf (ih his)

/-- Apart from its fields, an implementation reads what does not depend on the form. -/
theorem implementationOf_mapFields (site : Site) (is : List Interface) (types : List String)
    (fields : List Field) :
    { implementationOf merge site (is.map (Interface.mapFields form)) types with
        fields := fields } =
      { implementationOf merge site is types with fields := fields } := by
  simp only [implementationOf, List.map_map, List.foldl_map, List.head?_map, Option.bind_map]
  rfl

theorem mapFields_implementationOf_congr (h : Respects merge form) {site : Site}
    {fields : List Field} (hf : form site.fields = form fields)
    (hm : is.map (Interface.mapFields form) = js.map (Interface.mapFields form))
    (types : List String) :
    (implementationOf merge site is types).mapFields form =
      (implementationOf merge { site with fields := fields } js types).mapFields form := by
  have hmerged := h.merge (h.append hf (form_flatMap_fields h hm))
  let merged := form (merge (fields ++ js.flatMap Interface.fields))
  calc (implementationOf merge site is types).mapFields form
    _ = { implementationOf merge site is types with
          fields := form (merge (site.fields ++ is.flatMap Interface.fields)) } := rfl
    _ = { implementationOf merge site (is.map (Interface.mapFields form)) types with
          fields := merged } := by rw [hmerged, implementationOf_mapFields]
    _ = { implementationOf merge site js types with fields := merged } := by
      rw [hm, implementationOf_mapFields]
    _ = (implementationOf merge { site with fields := fields } js types).mapFields form := rfl

/-- Interfaces of the same form call for implementations of the same form. -/
theorem map_implementations_congr (h : Respects merge form) {site : Site} {fields : List Field}
    (hf : form site.fields = form fields)
    (hm : is.map (Interface.mapFields form) = js.map (Interface.mapFields form)) :
    (implementations merge is site).map (Implementation.mapFields form) =
      (implementations merge js { site with fields := fields }).map
        (Implementation.mapFields form) := by
  have hsatisfied : satisfied is = satisfied js := by
    rw [← satisfied_mapFields form is, hm, satisfied_mapFields]
  have hempty : is.isEmpty = js.isEmpty := by
    have he := congrArg List.isEmpty hm
    rwa [List.isEmpty_map, List.isEmpty_map] at he
  rw [implementations, implementations, hempty, hsatisfied]
  split
  · rfl
  · rw [List.map_map, List.map_map]
    refine List.map_congr_left fun g _ => mapFields_implementationOf_congr h hf ?_ g.members
    -- the members are found at the same positions
    have hget : ∀ n, (is[n]?).map (Interface.mapFields form) =
        (js[n]?).map (Interface.mapFields form) := fun n => by
      rw [← List.getElem?_map, hm, List.getElem?_map]
    rw [List.map_filterMap, List.map_filterMap, funext hget]

/-- **Interfaces of the same form are put together to fragments of the same form.** -/
theorem map_assemble_congr (h : Respects merge form) {site : Site} {fields : List Field}
    (hf : form site.fields = form fields)
    (hm : is.map (Interface.mapFields form) = js.map (Interface.mapFields form)) (pass : Pass) :
    (assemble pass merge is site).map (Fragment.mapFields form) =
      (assemble pass merge js { site with fields := fields }).map (Fragment.mapFields form) := by
  have hinterfaces : (is.map Fragment.interface).map (Fragment.mapFields form) =
      (js.map Fragment.interface).map (Fragment.mapFields form) := by
    have he := congrArg (List.map Fragment.interface) hm
    rwa [List.map_map, List.map_map] at he ⊢
  have himplementations := congrArg (List.map Fragment.implementation)
    (map_implementations_congr h hf hm)
  rw [List.map_map, List.map_map] at himplementations
  rw [assemble, assemble, List.map_append, List.map_append, hinterfaces]
  refine congrArg _ ?_
  split
  · rw [List.map_map, List.map_map]
    exact himplementations
  · rfl

theorem mapFields_coverFields_congr (h : Respects merge form) {fs gs : List Field}
    (hf : form fs = form gs) (keys : OrderedSet SelectionKey) (i j : Interface)
    (hi : i.mapFields form = j.mapFields form) :
    (coverFields merge fs keys i).mapFields form =
      (coverFields merge gs keys j).mapFields form := by
  obtain ⟨fields, hfields, rfl⟩ := Interface.exists_of_mapFields_eq hi
  have hm := h.merge (h.append (h.inherit (rebasedKeys keys i.typeCondition) hf) hfields)
  simp only [Interface.mapFields, coverFields, hm]

/-- **A pair of fields is merged to a field of the same form** as a pair of the same
form. -/
theorem mapBelow_mergeFieldPair_congr (h : Respects merge form) (a a' b b' : Field)
    (ha : a.mapBelow form = a'.mapBelow form) (hb : b.mapBelow form = b'.mapBelow form) :
    (mergeFieldPair pass merge a b).mapBelow form =
      (mergeFieldPair pass merge a' b').mapBelow form := by
  obtain ⟨fields, fragments, hf, hg, rfl⟩ := Field.exists_of_mapBelow_eq ha
  obtain ⟨fields', fragments', hf', hg', rfl⟩ := Field.exists_of_mapBelow_eq hb
  have hmerged := h.merge (h.append hf hf')
  have hinterfaces : (interfacesIn (a.fragments ++ b.fragments)).map (Interface.mapFields form) =
      (interfacesIn (fragments ++ fragments')).map (Interface.mapFields form) := by
    rw [← interfacesIn_mapFields, ← interfacesIn_mapFields, List.map_append, List.map_append, hg,
      hg']
  have hpair : (pairInterfaces merge a b).map (Interface.mapFields form) =
      ((mergeInterfaces merge (interfacesIn (fragments ++ fragments'))).map
        (coverFields merge (merge (fields ++ fields')) (a.keys.union b.keys))).map
          (Interface.mapFields form) := by
    rw [pairInterfaces, List.map_map, List.map_map]
    exact map_eq_of_map_eq (mapFields_coverFields_congr h hmerged _)
      (map_mergeInterfaces_congr h hinterfaces)
  have hsite : form (pairSite pass merge a b).fields = form (merge (fields ++ fields')) := hmerged
  have hfragments := map_assemble_congr h hsite hpair pass
  rw [mergeFieldPair_eq, Field.mapBelow, hmerged, hfragments]
  rfl

end Congruence

/-! ## The order of fields -/

theorem sortFields_inherit_congr {fs fs' : List Field}
    (rebased : List (SelectionKey × SelectionKey)) (h : sortFields fs = sortFields fs') :
    sortFields (inheritFields fs rebased) = sortFields (inheritFields fs' rebased) := by
  have hsort : ∀ gs : List Field, sortFields (inheritFields gs rebased) =
      (sortFields gs).map (Field.withDerivedKeys (rebaseKey rebased)) := fun gs => by
    rw [inheritFields_eq_map]
    exact sortFields_withDerivedKeys _ fun f _ => Field.sorted_withDerivedKeys _ f
  rw [hsort, hsort, h]

/-- The fields of a name are merged to one field. -/
theorem fieldsNamed_mergeFieldsAt_succ (n : Nat) (name : String) (fs : List Field) :
    fieldsNamed name (mergeFieldsAt pass (n + 1) fs) =
      match fieldsNamed name fs with
      | [] => []
      | first :: others => [others.foldl (mergeFieldPair pass (mergeFieldsAt pass n)) first] := by
  cases h : fieldsNamed name fs with
  | nil =>
    -- merging adds no name
    rw [fieldsNamed, List.filter_eq_nil_iff]
    intro f hf
    rw [decide_eq_true_eq]
    rintro rfl
    obtain ⟨c, hc, he⟩ := List.mem_map.1 (mem_names_mergeFieldsAt.1 (List.mem_map_of_mem hf))
    have hmem : c ∈ fieldsNamed f.responseName fs := mem_fieldsNamed.2 ⟨hc, he⟩
    rw [h] at hmem
    cases hmem
  | cons first others =>
    have hfirst : first ∈ fieldsNamed name fs := by rw [h]; exact List.mem_cons_self
    obtain ⟨hmem, rfl⟩ := mem_fieldsNamed.1 hfirst
    obtain ⟨g, hg, hk, -⟩ := exists_group Field.responseName hmem
    have hm := members_eq_filter hg
    rw [hk] at hm
    obtain ⟨hgf, hgo⟩ := List.cons.inj (hm.trans h)
    -- the fold of its group is the only field of the name
    have hfold : g.others.foldl (mergeFieldPair pass (mergeFieldsAt pass n)) g.first ∈
        mergeFieldsAt pass (n + 1) fs := List.mem_map_of_mem hg
    have hnodup : ((mergeFieldsAt pass (n + 1) fs).map Field.responseName).Nodup := by
      rw [names_mergeFieldsAt_succ]
      exact keys_nodup_groupBy _ _
    have honly := filter_key_of_nodup hnodup hfold
    rw [responseName_foldl, hgf, hgo] at honly
    exact honly

theorem respects_sortFields_at (pass : Pass) (n : Nat) :
    Respects (mergeFieldsAt pass n) sortFields := by
  induction n with
  | zero => exact ⟨sortFields_append_congr, sortFields_inherit_congr, fun h => h⟩
  | succ n ih =>
    refine ⟨sortFields_append_congr, sortFields_inherit_congr, fun {fs fs'} h => ?_⟩
    rw [sortFields_eq_iff] at h ⊢
    intro name
    have hn := h name
    rw [fieldsNamed_mergeFieldsAt_succ, fieldsNamed_mergeFieldsAt_succ]
    cases hfs : fieldsNamed name fs with
    | nil =>
      rw [hfs] at hn
      rw [List.map_eq_nil_iff.1 hn.symm]
    | cons f others =>
      cases hfs' : fieldsNamed name fs' with
      | nil =>
        rw [hfs, hfs'] at hn
        cases hn
      | cons f' others' =>
        rw [hfs, hfs'] at hn
        obtain ⟨hf, hothers⟩ := List.cons.inj hn
        refine congrArg (fun f => [f]) ?_
        refine foldl_eq_of_map_eq (fun a a' b b' ha hb => ?_) hf hothers
        rw [Field.sorted_eq, Field.sorted_eq] at ha hb ⊢
        exact mapBelow_mergeFieldPair_congr ih a a' b b' ha hb

/-- **Merging respects the order of fields.** -/
theorem respects_sortFields (pass : Pass) : Respects (mergeFields pass) sortFields := by
  refine ⟨sortFields_append_congr, sortFields_inherit_congr, fun {fs fs'} h => ?_⟩
  have hm := (respects_sortFields_at pass (max (fieldsDepth fs) (fieldsDepth fs'))).merge h
  rwa [mergeFieldsAt_of_le (Nat.le_max_left _ _), mergeFieldsAt_of_le (Nat.le_max_right _ _)] at hm

end SelectionModel
