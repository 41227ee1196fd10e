import SelectionModel.Proofs.Lowering.Built
import SelectionModel.Proofs.Merging.Erasure
import SelectionModel.Proofs.Sample

/-!
# Lowering and erasure

Lowering without implementations runs in step with lowering with them. Both look
up, coerce and enter the same things in the same order, so they fail with the same
errors, and what one gives is what erasure leaves of what the other gives.

* `lowerField_erase`, `lowerFragment_erase`: one field and one fragment, given
  lowerings one level down that are in step.
* `lowerings_agree`: **all selections, and the two selection sets of a fragment.**
-/

namespace SelectionModel

/-- Lowered selections without implementations. -/
def eraseSelections (lowered : List Field × List Fragment) : List Field × List Fragment :=
  (eraseFields lowered.1, eraseFragments lowered.2)

/-- The surroundings of fragments without implementations. -/
def Enclosing.erase (around : Enclosing) : Enclosing :=
  { around with fields := eraseFields around.fields }

variable {pass : Pass} {registry : Registry}

section Steps

variable {below below' : PlaceLowering} {fields fields' : FieldsLowering}
  {fragments fragments' : FragmentsLowering}

/-- A field, given what is below it. -/
theorem lowerField_erase (pass : Pass)
    (hb : ∀ place s, below' place s = (below place s).map eraseSelections)
    (type : String) (keys : OrderedSet SelectionKey) (s : Selected) (name : String)
    (group : List SelectedField) :
    lowerField pass.erase below' type keys s name group =
      (lowerField pass below type keys s name group).map (Option.map Field.erase) := by
  rw [lowerField, lowerField]
  refine Except.bind_eq_map_right fun r => ?_
  obtain ⟨conditions, included⟩ := r
  cases included with
  | nil => rfl
  | cons first rest =>
    simp only [Pass.erase]
    cases pass.schema.field? type first.head.name with
    | none => rfl
    | some definition =>
      -- the arguments are the same ones, and only what is below differs
      refine Except.bind_eq_map_right fun arguments => ?_
      split
      · rfl
      · refine Except.bind_eq_map (hb _ _) fun _ => ?_
        rfl

theorem lowerFieldsWith_erase (hb : ∀ place s, below' place s = (below place s).map eraseSelections)
    (type : String) (keys : OrderedSet SelectionKey) (s : Selected) :
    lowerFieldsWith pass.erase below' type keys s =
      (lowerFieldsWith pass below type keys s).map eraseFields := by
  rw [lowerFieldsWith, lowerFieldsWith]
  have hm := Except.mapM_eq_map (l := s.groups) fun g _ =>
    lowerField_erase pass hb type keys s g.key g.members
  refine Except.bind_eq_map hm fun results => ?_
  rw [List.filterMap_map]
  simp only [pure, Except.pure, Except.map, eraseFields_eq_map, List.map_filterMap]
  rfl

/-- An entered fragment is lowered before or after erasure. -/
theorem EnteredFragment.erase_lowered (e : EnteredFragment) (pass : Pass) (around : Enclosing)
    (conditions : List Condition) (own : List Field) :
    (e.lowered pass around conditions own).erase =
      e.lowered pass.erase around.erase conditions (eraseFields own) := by
  have hm := mergeFields_erase pass
    (inheritFields around.fields (rebasedKeys around.keys e.typeCondition) ++ own)
  rw [List.map_append, inheritFields_erase] at hm
  simp only [Interface.erase, lowered, Enclosing.erase, eraseFields_eq_map, hm]
  rfl

theorem Interface.enclosing_erase (i : Interface) : i.erase.enclosing = i.enclosing.erase := by
  simp only [enclosing, erase, Enclosing.erase, eraseFields_eq_map]

/-- A fragment and those in it, given its fields and the fragments in it. -/
theorem lowerFragment_erase (pass : Pass) (registry : Registry)
    (hf : ∀ type keys s, fields' type keys s = (fields type keys s).map eraseFields)
    (hg : ∀ around s, fragments' around.erase s =
      (fragments around s).map (List.map Interface.erase))
    (around : Enclosing) (s : Selected) (f : SelectedFragment) :
    lowerFragment pass.erase registry fields' fragments' around.erase s f =
      (lowerFragment pass registry fields fragments around s f).map (List.map Interface.erase) := by
  rw [lowerFragment, lowerFragment]
  refine Except.bind_eq_map_right fun inclusion => ?_
  cases inclusion with
  | never => rfl
  | under conditions =>
    refine Except.bind_eq_map_right fun e => ?_
    rw [lowerEntered, lowerEntered]
    by_cases ht : (pass.schema.type? e.typeCondition).isNone = true
    · have ht' : (pass.erase.schema.type? e.typeCondition).isNone = true := ht
      rw [if_pos ht, if_pos ht']
      rfl
    · have ht' : ¬(pass.erase.schema.type? e.typeCondition).isNone = true := ht
      rw [if_neg ht, if_neg ht']
      refine Except.bind_eq_map (hf _ _ _) fun own => ?_
      -- the fragments in it are surrounded by the interface, erased on one side
      have hl := e.erase_lowered pass around conditions own
      have he := hg (e.lowered pass around conditions own).enclosing e.selected
      rw [← Interface.enclosing_erase, hl] at he
      refine Except.bind_eq_map he fun nested => ?_
      exact congrArg (fun i => Except.ok (i :: nested.map Interface.erase)) hl.symm

theorem lowerFragmentsWith_erase
    (hf : ∀ type keys s, fields' type keys s = (fields type keys s).map eraseFields)
    (hg : ∀ around s, fragments' around.erase s =
      (fragments around s).map (List.map Interface.erase))
    (around : Enclosing) (s : Selected) :
    lowerFragmentsWith pass.erase registry fields' fragments' around.erase s =
      (lowerFragmentsWith pass registry fields fragments around s).map
        (List.map Interface.erase) := by
  rw [lowerFragmentsWith, lowerFragmentsWith]
  have hm := Except.mapM_eq_map (l := s.fragments) fun f _ =>
    lowerFragment_erase pass registry hf hg around s f
  refine Except.bind_eq_map hm fun results => ?_
  exact congrArg Except.ok List.map_flatten.symm

theorem lowerPlaceWith_erase
    (hf : ∀ type keys s, fields' type keys s = (fields type keys s).map eraseFields)
    (hg : ∀ around s, fragments' around.erase s =
      (fragments around s).map (List.map Interface.erase))
    (place : Place) (s : Selected) :
    lowerPlaceWith pass.erase fields' fragments' place s =
      (lowerPlaceWith pass fields fragments place s).map eraseSelections := by
  rw [lowerPlaceWith, lowerPlaceWith]
  refine Except.bind_eq_map (hf _ _ _) fun own => ?_
  refine Except.bind_eq_map (hg (place.enclosing pass own) s) fun interfaces => ?_
  have hm := mergeInterfaces_erase (mergeFields_erase pass) interfaces
  have ha : eraseFragments (assemble pass (mergeFields pass)
        (mergeInterfaces (mergeFields pass) interfaces) (place.site pass own)) =
      assemble pass.erase (mergeFields pass.erase)
        ((mergeInterfaces (mergeFields pass) interfaces).map Interface.erase)
        (place.site pass (eraseFields own)) := eraseFragments_assemble _ _ _
  rw [hm] at ha
  exact congrArg (fun gs => Except.ok (eraseFields own, gs)) ha.symm

end Steps

/-- Lowerings under a bound are in step. -/
theorem lowerings_erase (pass : Pass) (registry : Registry) (n : Nat) :
    (∀ type keys s, lowerFields pass.erase registry n type keys s =
      (lowerFields pass registry n type keys s).map eraseFields) ∧
    (∀ around s, lowerFragments pass.erase registry n around.erase s =
      (lowerFragments pass registry n around s).map (List.map Interface.erase)) := by
  induction n with
  | zero => exact ⟨fun _ _ _ => rfl, fun _ _ => rfl⟩
  | succ n ih =>
    obtain ⟨hf, hg⟩ := ih
    constructor
    · intro type keys s
      exact lowerFieldsWith_erase (lowerPlaceWith_erase hf hg) type keys s
    · intro around s
      exact lowerFragmentsWith_erase hf hg around s

theorem lowerPlace_erase (pass : Pass) (registry : Registry) (place : Place) (s : Selected) :
    lowerPlace pass.erase registry place s =
      (lowerPlace pass registry place s).map eraseSelections := by
  obtain ⟨hf, hg⟩ := lowerings_erase pass registry (s.depth registry)
  exact lowerPlaceWith_erase hf hg place s

/-- The selection sets of a built fragment differ in implementations and in the
keys of the default one. -/
theorem Builder.erase_defaultSelectionSet {b : Builder} {f : RegisteredFragment}
    {nf : NamedFragment} (h : b.buildNamedFragment f = .ok nf) :
    nf.defaultSelectionSet.erase =
      patchSelectionSet nf.selectionSet nf.name nf.defaultImplementationName := by
  obtain ⟨set, default, hs, hd, -, -, he, he'⟩ := sets_of_buildNamedFragment h
  obtain ⟨fields, fragments, hl, rfl⟩ := lowerSelectionSet_eq_ok.1 hd
  obtain ⟨fields', fragments', hl', rfl⟩ := lowerSelectionSet_eq_ok.1 hs
  -- the other set was lowered without implementations, so it is what erasure leaves
  have hp := lowerPlace_erase ⟨b.schema, true⟩ b.registry (fragmentPlace f)
    (Selected.ofDefinition f)
  rw [hl] at hp
  obtain ⟨rfl, rfl⟩ := Prod.mk.inj (Except.ok.inj (hl'.symm.trans hp))
  rw [he, he', patchSelectionSet, SelectionSet.erase_withDerivedKeys]
  rfl

/-- **The two lowerings of selections agree.** Without implementations, lowering
gives what erasure leaves of what it gives with them, and the same error when that
fails. So erasure leaves of the default selection set of a fragment its other
selection set with the additional keys. -/
theorem lowerings_agree :
    (∀ (schema : Schema) (registry : Registry) (place : Place) (s : Selected),
      lowerPlace ⟨schema, false⟩ registry place s =
        (lowerPlace ⟨schema, true⟩ registry place s).map eraseSelections) ∧
    (∀ (b : Builder) (f : RegisteredFragment) (nf : NamedFragment),
      b.buildNamedFragment f = .ok nf →
      nf.defaultSelectionSet.erase =
        patchSelectionSet nf.selectionSet nf.name nf.defaultImplementationName) := by
  constructor
  · intro schema registry place s
    exact lowerPlace_erase ⟨schema, true⟩ registry place s
  · intro b f nf h
    exact Builder.erase_defaultSelectionSet h

/-- The selection sets of the fragment of the sample. -/
theorem sample_lowerings_agree :
    ∃ nf, Sample.builder.buildNamedFragment Sample.fragment = .ok nf ∧
      nf.defaultSelectionSet.erase =
        patchSelectionSet nf.selectionSet nf.name nf.defaultImplementationName := by
  obtain ⟨nf, h⟩ := Sample.exists_namedFragment
  exact ⟨nf, h, lowerings_agree.2 _ _ _ h⟩

end SelectionModel
