import SelectionModel.Lowering.Merging
import SelectionModel.Proofs.Groups

/-!
# Merged interfaces

What merging leaves of the interfaces it is given. A property of interfaces that
holds of a merged pair exactly when it holds of one of the two, such as having a
possible type or a key, holds of a merged interface exactly when it holds of one
of those with its type condition.

* `nodup_typeConditions`: no two merged interfaces have the same type condition.
* `mergeInterfaces_iff`: what holds of merged interfaces.
-/

namespace SelectionModel

variable {merge : List Field → List Field} {is : List Interface} {i j : Interface}

theorem typeCondition_foldl (first : Interface) (others : List Interface) :
    (others.foldl (mergeInterfacePair merge) first).typeCondition = first.typeCondition := by
  induction others generalizing first with
  | nil => rfl
  | cons o others ih => rw [List.foldl_cons, ih]; rfl

theorem typeConditions_mergeInterfaces :
    (mergeInterfaces merge is).map Interface.typeCondition =
      (groupBy Interface.typeCondition is).map Group.key := by
  rw [mergeInterfaces, List.map_map]
  refine List.map_congr_left fun g hg => ?_
  rw [Function.comp_apply, typeCondition_foldl]
  exact ((mem_members_iff hg).1 List.mem_cons_self).2

/-- **No two merged interfaces have the same type condition.** -/
theorem nodup_typeConditions :
    ((mergeInterfaces merge is).map Interface.typeCondition).Nodup := by
  rw [typeConditions_mergeInterfaces]
  exact keys_nodup_groupBy _ _

theorem exists_mergeInterfaces (merge : List Field → List Field) (h : i ∈ is) :
    ∃ j ∈ mergeInterfaces merge is, j.typeCondition = i.typeCondition := by
  have hm : i.typeCondition ∈ (mergeInterfaces merge is).map Interface.typeCondition := by
    rw [typeConditions_mergeInterfaces, mem_keys_groupBy]
    exact List.mem_map_of_mem h
  exact List.mem_map.1 hm

/-- A merged interface is the fold of those with its type condition. -/
theorem exists_fold_of_mem (h : j ∈ mergeInterfaces merge is) :
    ∃ g ∈ groupBy Interface.typeCondition is,
      j = g.others.foldl (mergeInterfacePair merge) g.first ∧ g.key = j.typeCondition := by
  obtain ⟨g, hg, rfl⟩ := List.mem_map.1 h
  refine ⟨g, hg, rfl, ?_⟩
  rw [typeCondition_foldl]
  exact ((mem_members_iff hg).1 List.mem_cons_self).2.symm

variable {p : Interface → Prop}

/-- **What holds of a merged pair just when it holds of one of the two** holds of a merged
interface just when it holds of one with its type condition. -/
theorem mergeInterfaces_iff (h : ∀ a b, p (mergeInterfacePair merge a b) ↔ p a ∨ p b)
    (hj : j ∈ mergeInterfaces merge is) :
    p j ↔ ∃ i ∈ is, i.typeCondition = j.typeCondition ∧ p i := by
  obtain ⟨g, hg, rfl, hk⟩ := exists_fold_of_mem hj
  rw [foldl_iff_exists h]
  constructor
  · rintro ⟨i, hi, hp⟩
    obtain ⟨hi, he⟩ := (mem_members_iff hg).1 hi
    exact ⟨i, hi, he.trans hk, hp⟩
  · rintro ⟨i, hi, he, hp⟩
    exact ⟨i, (mem_members_iff hg).2 ⟨hi, he.trans hk.symm⟩, hp⟩

/-- What merging pairs keeps holds of every merged interface. -/
theorem mergeInterfaces_forall (h : ∀ a b, p a → p b → p (mergeInterfacePair merge a b))
    (hp : ∀ i ∈ is, p i) : ∀ j ∈ mergeInterfaces merge is, p j := by
  intro j hj
  obtain ⟨g, hg, rfl, -⟩ := exists_fold_of_mem hj
  have hm : ∀ i ∈ g.members, p i := fun i hi => hp i ((mem_members_iff hg).1 hi).1
  exact foldl_of_forall h hm

theorem mem_possibleTypes_mergeInterfaces {type : String} (hj : j ∈ mergeInterfaces merge is) :
    type ∈ j.possibleTypes ↔
      ∃ i ∈ is, i.typeCondition = j.typeCondition ∧ type ∈ i.possibleTypes :=
  mergeInterfaces_iff (p := fun i => type ∈ i.possibleTypes) (fun _ _ => OrderedSet.mem_union) hj

end SelectionModel
