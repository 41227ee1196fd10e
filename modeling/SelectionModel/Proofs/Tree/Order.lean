import Mathlib.Data.List.Sort
import SelectionModel.Proofs.Tree.Subfields

/-!
# Trees up to the order of fields

Sorting a tree puts each list of fields in it, at any depth, in the order of response
names; fields of one name keep their order. Trees are the same up to the order of their
fields when sorting makes them equal.

* `Field.sorted_eq`: a tree is sorted list by list.
* `sortFields_eq_iff`: **lists are the same up to order when those of each name are.**
* `Field.sorted_withDerivedKeys`: keys can be derived before or after sorting.
-/

namespace SelectionModel

/-! ## Functions on lists of fields -/

section Map

variable (form : List Field → List Field)

/-- The interface with a function applied to its fields. -/
def Interface.mapFields (i : Interface) : Interface := { i with fields := form i.fields }

/-- The implementation with a function applied to its fields. -/
def Implementation.mapFields (m : Implementation) : Implementation :=
  { m with fields := form m.fields }

/-- The fragment with a function applied to its fields. -/
def Fragment.mapFields : Fragment → Fragment
  | .interface i => .interface (i.mapFields form)
  | .implementation m => .implementation (m.mapFields form)

/-- The field with a function applied to each list of fields right below it. -/
def Field.mapBelow (f : Field) : Field :=
  { f with fields := form f.fields, fragments := f.fragments.map (Fragment.mapFields form) }

@[simp] theorem Field.responseName_mapBelow (f : Field) :
    (f.mapBelow form).responseName = f.responseName := rfl

theorem interfacesIn_mapFields (gs : List Fragment) :
    interfacesIn (gs.map (Fragment.mapFields form)) =
      (interfacesIn gs).map (Interface.mapFields form) := by
  rw [interfacesIn, interfacesIn, List.filterMap_map, List.map_filterMap]
  refine List.filterMap_congr fun g _ => ?_
  cases g <;> rfl

variable {form}

/-- Interfaces that a function makes equal differ in their fields at most. -/
theorem Interface.exists_of_mapFields_eq {i j : Interface}
    (h : i.mapFields form = j.mapFields form) :
    ∃ fields, form i.fields = form fields ∧ j = { i with fields := fields } := by
  cases i
  cases j
  simp only [mapFields, mk.injEq] at h
  obtain ⟨rfl, rfl, hf, rfl, rfl, rfl⟩ := h
  exact ⟨_, hf, rfl⟩

/-- Fields that a function makes equal differ in what is below them at most. -/
theorem Field.exists_of_mapBelow_eq {f g : Field} (h : f.mapBelow form = g.mapBelow form) :
    ∃ fields fragments, form f.fields = form fields ∧
      f.fragments.map (Fragment.mapFields form) = fragments.map (Fragment.mapFields form) ∧
      g = { f with fields := fields, fragments := fragments } := by
  cases f
  cases g
  simp only [mapBelow, mk.injEq] at h
  obtain ⟨rfl, rfl, rfl, rfl, rfl, rfl, hf, hg, rfl, rfl, rfl⟩ := h
  exact ⟨_, _, hf, hg, rfl⟩

@[simp] theorem Fragment.mapFields_id : Fragment.mapFields id = id := by
  funext g
  rcases g with ⟨⟨⟩⟩ | ⟨⟨⟩⟩ <;> rfl

@[simp] theorem Field.mapBelow_id : Field.mapBelow id = id := by
  funext f
  cases f
  simp [mapBelow]

end Map

/-! ## Sorting -/

/-- The order of response names. -/
def Field.byName (f g : Field) : Prop := f.responseName ≤ g.responseName

instance : DecidableRel Field.byName := fun f g => String.decLE f.responseName g.responseName

instance : IsTrans Field Field.byName := ⟨fun _ _ _ => String.le_trans⟩

instance : Std.Total Field.byName := ⟨fun f g => String.le_total f.responseName g.responseName⟩

mutual

/-- The field with all fields below it in the order of their response names. -/
def Field.sorted : Field → Field
  | ⟨aliasName, arguments, conditions, location, deprecation, description, fields, fragments, name,
      keys, type⟩ =>
    ⟨aliasName, arguments, conditions, location, deprecation, description, sortFields fields,
      sortFragments fragments, name, keys, type⟩

/-- Fields in the order of their response names, at any depth. -/
def sortFields : List Field → List Field
  | [] => []
  | f :: fs => (sortFields fs).orderedInsert Field.byName f.sorted

/-- The fragment with its fields in the order of their response names, at any depth. -/
def Fragment.sorted : Fragment → Fragment
  | .interface ⟨conditions, description, fields, possibleTypes, keys, typeCondition⟩ =>
    .interface
      ⟨conditions, description, sortFields fields, possibleTypes, keys, typeCondition⟩
  | .implementation ⟨conditions, description, fields, name, possibleTypes, keys, typeConditions⟩ =>
    .implementation
      ⟨conditions, description, sortFields fields, name, possibleTypes, keys, typeConditions⟩

/-- Fragments with their fields in the order of their response names. The fragments stay
in their order. -/
def sortFragments : List Fragment → List Fragment
  | [] => []
  | g :: gs => g.sorted :: sortFragments gs

end

theorem Fragment.sorted_eq (g : Fragment) : g.sorted = g.mapFields sortFields := by
  rcases g with ⟨⟨⟩⟩ | ⟨⟨⟩⟩ <;> rw [sorted] <;> rfl

theorem sortFragments_eq_map (gs : List Fragment) :
    sortFragments gs = gs.map (Fragment.mapFields sortFields) := by
  induction gs with
  | nil => rfl
  | cons g gs ih => rw [sortFragments, ih, Fragment.sorted_eq, List.map_cons]

/-- **A tree is sorted list by list.** -/
theorem Field.sorted_eq (f : Field) : f.sorted = f.mapBelow sortFields := by
  cases f
  rw [sorted, sortFragments_eq_map]
  rfl

theorem sortFields_eq (fs : List Field) :
    sortFields fs = (fs.map Field.sorted).insertionSort Field.byName := by
  induction fs with
  | nil => rfl
  | cons f fs ih => rw [sortFields, ih, List.map_cons, List.insertionSort_cons]

@[simp] theorem Field.responseName_sorted (f : Field) : f.sorted.responseName = f.responseName := by
  rw [sorted_eq, responseName_mapBelow]

theorem pairwise_sortFields (fs : List Field) : (sortFields fs).Pairwise Field.byName := by
  rw [sortFields_eq]
  exact List.pairwise_insertionSort _ _

/-! ## Fields of one name -/

/-- The fields of a response name. -/
def fieldsNamed (name : String) (fs : List Field) : List Field :=
  fs.filter fun f => decide (f.responseName = name)

variable {name : String} {fs gs : List Field}

theorem mem_fieldsNamed {f : Field} : f ∈ fieldsNamed name fs ↔ f ∈ fs ∧ f.responseName = name := by
  simp [fieldsNamed]

@[simp] theorem fieldsNamed_nil : fieldsNamed name [] = [] := rfl

theorem fieldsNamed_append :
    fieldsNamed name (fs ++ gs) = fieldsNamed name fs ++ fieldsNamed name gs :=
  List.filter_append _ _

theorem fieldsNamed_cons_self (f : Field) :
    fieldsNamed f.responseName (f :: fs) = f :: fieldsNamed f.responseName fs :=
  List.filter_cons_of_pos (by simp)

theorem fieldsNamed_cons_of_ne {f : Field} (h : f.responseName ≠ name) :
    fieldsNamed name (f :: fs) = fieldsNamed name fs :=
  List.filter_cons_of_neg (by simpa using h)

theorem fieldsNamed_map {F : Field → Field} (h : ∀ f, (F f).responseName = f.responseName) :
    fieldsNamed name (fs.map F) = (fieldsNamed name fs).map F := by
  rw [fieldsNamed, fieldsNamed, List.filter_map]
  exact congrArg _ (List.filter_congr fun f _ => by rw [Function.comp_apply, h])

/-- Fields of one name keep their order. -/
theorem fieldsNamed_insertionSort :
    fieldsNamed name (fs.insertionSort Field.byName) = fieldsNamed name fs := by
  -- they are in order already, so sorting keeps them as they stand
  have horder : (fieldsNamed name fs).Pairwise Field.byName := by
    refine List.pairwise_of_forall_mem_list fun f hf g hg => ?_
    have he : f.responseName = g.responseName :=
      (mem_fieldsNamed.1 hf).2.trans (mem_fieldsNamed.1 hg).2.symm
    rw [Field.byName]
    exact he ▸ String.le_refl f.responseName
  have hsub := (List.sublist_insertionSort horder List.filter_sublist).filter
    fun f => decide (f.responseName = name)
  have hperm : (fieldsNamed name (fs.insertionSort Field.byName)).Perm (fieldsNamed name fs) :=
    (List.perm_insertionSort Field.byName fs).filter _
  rw [fieldsNamed, List.filter_filter] at hsub
  simp only [Bool.and_self] at hsub
  exact (hsub.eq_of_length hperm.length_eq.symm).symm

theorem fieldsNamed_sortFields :
    fieldsNamed name (sortFields fs) = (fieldsNamed name fs).map Field.sorted := by
  rw [sortFields_eq, fieldsNamed_insertionSort, fieldsNamed_map Field.responseName_sorted]

/-- The first of some fields in order has the least name. -/
theorem responseName_le_of_fieldsNamed {f g : Field} (hg : (g :: gs).Pairwise Field.byName)
    (h : fieldsNamed f.responseName (g :: gs) ≠ []) : g.responseName ≤ f.responseName := by
  obtain ⟨c, hc⟩ := List.exists_mem_of_ne_nil _ h
  obtain ⟨hc, hn⟩ := mem_fieldsNamed.1 hc
  rcases List.mem_cons.1 hc with rfl | hc
  · exact hn ▸ String.le_refl _
  · rw [← hn]
    exact (List.pairwise_cons.1 hg).1 c hc

/-- Fields in order are told by those of each name. -/
theorem eq_of_fieldsNamed_eq (hf : fs.Pairwise Field.byName) (hg : gs.Pairwise Field.byName)
    (h : ∀ name, fieldsNamed name fs = fieldsNamed name gs) : fs = gs := by
  induction fs generalizing gs with
  | nil =>
    cases gs with
    | nil => rfl
    | cons g gs =>
      have hn := h g.responseName
      rw [fieldsNamed_cons_self] at hn
      cases hn
  | cons f fs ih =>
    cases gs with
    | nil =>
      have hn := h f.responseName
      rw [fieldsNamed_cons_self] at hn
      cases hn
    | cons g gs =>
      -- both lists start with the least name, and so with the same field
      have hgf : g.responseName ≤ f.responseName := responseName_le_of_fieldsNamed hg (by
        rw [← h, fieldsNamed_cons_self]
        exact List.cons_ne_nil _ _)
      have hfg : f.responseName ≤ g.responseName := responseName_le_of_fieldsNamed hf (by
        rw [h, fieldsNamed_cons_self]
        exact List.cons_ne_nil _ _)
      have hname : f.responseName = g.responseName := String.le_antisymm hfg hgf
      have hfirst := h f.responseName
      rw [fieldsNamed_cons_self, hname, fieldsNamed_cons_self] at hfirst
      obtain ⟨rfl, hrest⟩ := List.cons.inj hfirst
      have hall : ∀ name, fieldsNamed name fs = fieldsNamed name gs := by
        intro name
        by_cases hn : f.responseName = name
        · exact hn ▸ hrest
        · have hn' := h name
          rwa [fieldsNamed_cons_of_ne hn, fieldsNamed_cons_of_ne hn] at hn'
      rw [ih (List.pairwise_cons.1 hf).2 (List.pairwise_cons.1 hg).2 hall]

/-- **Lists are the same up to order when those of each name are.** -/
theorem sortFields_eq_iff :
    sortFields fs = sortFields gs ↔
      ∀ name, (fieldsNamed name fs).map Field.sorted = (fieldsNamed name gs).map Field.sorted := by
  constructor
  · intro h name
    rw [← fieldsNamed_sortFields, ← fieldsNamed_sortFields, h]
  · intro h
    refine eq_of_fieldsNamed_eq (pairwise_sortFields fs) (pairwise_sortFields gs) fun name => ?_
    rw [fieldsNamed_sortFields, fieldsNamed_sortFields, h]

theorem sortFields_append_congr {fs' gs' : List Field} (hf : sortFields fs = sortFields fs')
    (hg : sortFields gs = sortFields gs') : sortFields (fs ++ gs) = sortFields (fs' ++ gs') := by
  rw [sortFields_eq_iff] at hf hg ⊢
  intro name
  rw [fieldsNamed_append, fieldsNamed_append, List.map_append, List.map_append, hf, hg]

/-! ## Derived keys -/

section Derived

variable (derive : SelectionKey → List SelectionKey)

theorem sortFields_withDerivedKeys
    (h : ∀ f ∈ fs, (f.withDerivedKeys derive).sorted = f.sorted.withDerivedKeys derive) :
    sortFields (fs.map (Field.withDerivedKeys derive)) =
      (sortFields fs).map (Field.withDerivedKeys derive) := by
  have hmap : (fs.map (Field.withDerivedKeys derive)).map Field.sorted =
      (fs.map Field.sorted).map (Field.withDerivedKeys derive) := by
    rw [List.map_map, List.map_map]
    exact List.map_congr_left h
  rw [sortFields_eq, sortFields_eq, hmap]
  refine (List.map_insertionSort _ _ _ _ fun f _ g _ => ?_).symm
  rw [Field.byName, Field.byName, Field.responseName_withDerivedKeys,
    Field.responseName_withDerivedKeys]

theorem Fragment.mapFields_withDerivedKeys {g : Fragment}
    (h : sortFields (g.fields.map (Field.withDerivedKeys derive)) =
      (sortFields g.fields).map (Field.withDerivedKeys derive)) :
    (g.withDerivedKeys derive).mapFields sortFields =
      (g.mapFields sortFields).withDerivedKeys derive := by
  cases g with
  | interface i =>
    have hi : (i.withDerivedKeys derive).mapFields sortFields =
        (i.mapFields sortFields).withDerivedKeys derive := by
      simpa [Interface.mapFields, Interface.withDerivedKeys, fields] using h
    rw [withDerivedKeys_interface, mapFields, mapFields, hi, withDerivedKeys_interface]
  | implementation m =>
    have hm : (m.withDerivedKeys derive).mapFields sortFields =
        (m.mapFields sortFields).withDerivedKeys derive := by
      simpa [Implementation.mapFields, Implementation.withDerivedKeys, fields] using h
    rw [withDerivedKeys_implementation, mapFields, mapFields, hm, withDerivedKeys_implementation]

/-- **Keys can be derived before or after sorting.** -/
theorem Field.sorted_withDerivedKeys (f : Field) :
    (f.withDerivedKeys derive).sorted = f.sorted.withDerivedKeys derive := by
  induction f using Field.induction with
  | step f ih =>
    have hfields := sortFields_withDerivedKeys derive fun c (hc : c ∈ f.fields) =>
      ih c (mem_subfieldsOf.2 (.inl hc))
    have hfragments : (f.fragments.map (Fragment.withDerivedKeys derive)).map
          (Fragment.mapFields sortFields) =
        (f.fragments.map (Fragment.mapFields sortFields)).map
          (Fragment.withDerivedKeys derive) := by
      rw [List.map_map, List.map_map]
      refine List.map_congr_left fun g hg => Fragment.mapFields_withDerivedKeys derive ?_
      exact sortFields_withDerivedKeys derive fun c hc =>
        ih c (mem_subfieldsOf.2 (.inr ⟨g, hg, hc⟩))
    rw [sorted_eq, sorted_eq]
    cases f
    simp only [mapBelow, withDerivedKeys, fieldsWithDerivedKeys_eq_map,
      fragmentsWithDerivedKeys_eq_map, hfields, hfragments]

end Derived

end SelectionModel
