import SelectionModel.Proofs.Merging.Fields
import SelectionModel.Proofs.Supply

/-!
# Merging goes up

There are several senses in which one field has all that another one has. In each of them
merging goes up: the field that is left of a response name is above all fields of that name.
What such a sense has to do with merging is said for one pair.

* `Grows`: a merging leaves something above each field.
* `Enlarges`: a sense in which merged pairs are above both fields, and so are fields with
  more keys.
* `Enlarges.grows`: **in each such sense merging goes up.**
-/

namespace SelectionModel

/-- **A merging goes up**: it leaves something above each field. -/
def Grows (R : Field → Field → Prop) (merge : List Field → List Field) : Prop :=
  ∀ fs, Supplies R (merge fs) fs

/-- **A sense in which fields grow**: with derived keys, and where two of one response name
are merged by something that goes up. -/
structure Enlarges (pass : Pass) (R : Field → Field → Prop) : Prop where
  responseName : ∀ {g f : Field}, R g f → g.responseName = f.responseName
  derived : ∀ (derive : SelectionKey → List SelectionKey) (f : Field), R (f.withDerivedKeys derive) f
  left : ∀ {merge : List Field → List Field}, Grows R merge → ∀ a b,
    R (mergeFieldPair pass merge a b) a
  right : ∀ {merge : List Field → List Field}, Grows R merge → ∀ a b,
    a.responseName = b.responseName → R (mergeFieldPair pass merge a b) b

variable {pass : Pass} {R : Field → Field → Prop} {merge : List Field → List Field}

theorem Enlarges.supplies_inheritFields (h : Enlarges pass R) (fs : List Field)
    (rebased : List (SelectionKey × SelectionKey)) : Supplies R (inheritFields fs rebased) fs := by
  rw [inheritFields_eq_map]
  exact fun f hf => ⟨_, List.mem_map_of_mem hf, h.derived _ f⟩

variable [IsPreorder Field R]

namespace Grows

theorem left (hm : Grows R merge) (fs gs : List Field) : Supplies R (merge (fs ++ gs)) fs :=
  (hm _).trans (.of_subset fun _ h => List.mem_append_left _ h)

theorem right (hm : Grows R merge) (fs gs : List Field) : Supplies R (merge (fs ++ gs)) gs :=
  (hm _).trans (.of_subset fun _ h => List.mem_append_right _ h)

end Grows

/-- **Interfaces are supplied by those they are merged to**, in a sense in which a merged pair
is above both. -/
theorem supplies_mergeInterfaces {S : Interface → Interface → Prop} [IsPreorder Interface S]
    (hl : ∀ a b, S (mergeInterfacePair merge a b) a)
    (hr : ∀ a b, a.typeCondition = b.typeCondition → S (mergeInterfacePair merge a b) b)
    (is : List Interface) : Supplies S (mergeInterfaces merge is) is :=
  supplies_foldGroups Interface.typeCondition (f := mergeInterfacePair merge) (fun _ _ => rfl) hl hr
    is

namespace Enlarges

/-- An interface takes over the fields of its selection. -/
theorem supplies_coverFields (h : Enlarges pass R) (hm : Grows R merge) (fs : List Field)
    (keys : OrderedSet SelectionKey) (i : Interface) :
    Supplies R (coverFields merge fs keys i).fields fs :=
  (hm.left _ _).trans (h.supplies_inheritFields _ _)

theorem grows_mergeFieldsAt (h : Enlarges pass R) (n : Nat) : Grows R (mergeFieldsAt pass n) := by
  induction n with
  | zero => exact fun fs => .of_subset fun _ h => h
  | succ n ih =>
    intro fs
    rw [mergeFieldsAt]
    exact supplies_foldGroups Field.responseName (f := mergeFieldPair pass (mergeFieldsAt pass n))
      (fun _ _ => rfl) (h.left ih) (h.right ih) fs

/-- **Merging goes up**, level by level. -/
theorem grows (h : Enlarges pass R) : Grows R (mergeFields pass) :=
  fun fs => h.grows_mergeFieldsAt _ fs

end Enlarges

end SelectionModel
