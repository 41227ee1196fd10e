import SelectionModel.Proofs.Merging.Depth
import SelectionModel.Proofs.Tree.Erasure

/-!
# Merging and erasure

Implementations are worked out from interfaces and never merged themselves. So
fields can be merged with implementations and erased afterwards, or erased first
and merged without implementations.

* `erase_mergeFieldPair`: for one pair, given a merging of the fields below.
* `mergeFields_erase`: **for all fields.**
-/

namespace SelectionModel

/-- The same pass without implementations. -/
def Pass.erase (pass : Pass) : Pass := { pass with withImplementations := false }

/-- One merging does to erased fields what the other does before erasure. -/
def ErasesTo (merge merge' : List Field → List Field) : Prop :=
  ∀ fs, (merge fs).map Field.erase = merge' (fs.map Field.erase)

theorem inheritFields_erase (fs : List Field) (rebased : List (SelectionKey × SelectionKey)) :
    (inheritFields fs rebased).map Field.erase = inheritFields (fs.map Field.erase) rebased := by
  rw [inheritFields_eq_map, inheritFields_eq_map, List.map_map, List.map_map]
  exact List.map_congr_left fun f _ => Field.erase_withDerivedKeys _ f

section Erases

variable {pass : Pass} {merge merge' : List Field → List Field}

theorem erase_mergeInterfacePair (h : ErasesTo merge merge') (a b : Interface) :
    (mergeInterfacePair merge a b).erase = mergeInterfacePair merge' a.erase b.erase := by
  have hf := h (a.fields ++ b.fields)
  rw [List.map_append] at hf
  simp only [mergeInterfacePair, Interface.erase, hf]

/-- Interfaces can be merged before or after erasure. -/
theorem mergeInterfaces_erase (h : ErasesTo merge merge') (is : List Interface) :
    (mergeInterfaces merge is).map Interface.erase =
      mergeInterfaces merge' (is.map Interface.erase) := by
  have hk : ∀ i : Interface, i.erase.typeCondition = i.typeCondition := fun _ => rfl
  rw [mergeInterfaces, mergeInterfaces, groupBy_map hk, List.map_map, List.map_map]
  refine List.map_congr_left fun g _ => ?_
  exact (List.foldl_map_hom fun a b => (erase_mergeInterfacePair h a b).symm).symm

theorem erase_coverFields (h : ErasesTo merge merge') (fs : List Field)
    (keys : OrderedSet SelectionKey) (i : Interface) :
    (coverFields merge fs keys i).erase = coverFields merge' (fs.map Field.erase) keys i.erase := by
  have hf := h (inheritFields fs (rebasedKeys keys i.typeCondition) ++ i.fields)
  rw [List.map_append, inheritFields_erase] at hf
  simp only [coverFields, Interface.erase, hf]

/-- Erasure leaves nothing of assembled fragments but the interfaces. -/
theorem eraseFragments_assemble (is : List Interface) (site site' : Site) :
    eraseFragments (assemble pass merge is site) =
      assemble pass.erase merge' (is.map Interface.erase) site' := by
  rw [eraseFragments_eq_map, interfacesIn_assemble, assemble]
  simp [Pass.erase]

/-- **A pair can be merged before or after erasure.** -/
theorem erase_mergeFieldPair (h : ErasesTo merge merge') (a b : Field) :
    (mergeFieldPair pass merge a b).erase = mergeFieldPair pass.erase merge' a.erase b.erase := by
  have hf := h (a.fields ++ b.fields)
  rw [List.map_append] at hf
  -- only interfaces are merged, and erasure keeps all of them
  have hi : (pairInterfaces merge a b).map Interface.erase =
      pairInterfaces merge' a.erase b.erase := by
    have hm := mergeInterfaces_erase h (interfacesIn (a.fragments ++ b.fragments))
    rw [← interfacesIn_eraseFragments, eraseFragments_append] at hm
    rw [pairInterfaces, pairInterfaces, Field.fragments_erase, Field.fragments_erase, ← hm,
      List.map_map, List.map_map]
    refine List.map_congr_left fun i _ => ?_
    rw [Function.comp_apply, erase_coverFields h, hf]
    simp
  have hg : eraseFragments (assemble pass merge (pairInterfaces merge a b)
        (pairSite pass merge a b)) =
      assemble pass.erase merge' (pairInterfaces merge' a.erase b.erase)
        (pairSite pass.erase merge' a.erase b.erase) := by
    rw [← hi]
    exact eraseFragments_assemble _ _ _
  rw [mergeFieldPair_eq, mergeFieldPair_eq, Field.erase_eq, ← hg, Field.erase_eq a]
  simp only [Field.fields_erase, Field.keys_erase, Field.conditions_erase, hf]

theorem mergeFieldsAt_erase (n : Nat) :
    ErasesTo (mergeFieldsAt pass n) (mergeFieldsAt pass.erase n) := by
  induction n with
  | zero => exact fun fs => rfl
  | succ n ih =>
    intro fs
    rw [mergeFieldsAt, mergeFieldsAt, groupBy_map Field.responseName_erase, List.map_map,
      List.map_map]
    refine List.map_congr_left fun g _ => ?_
    exact (List.foldl_map_hom fun a b => (erase_mergeFieldPair ih a b).symm).symm

/-- **Fields can be merged before or after erasure.** -/
theorem mergeFields_erase (pass : Pass) : ErasesTo (mergeFields pass) (mergeFields pass.erase) := by
  intro fs
  rw [mergeFields, mergeFieldsAt_erase]
  exact mergeFieldsAt_of_le (fieldsDepth_erase_le fs)

end Erases

end SelectionModel
