import SelectionModel.Proofs.Tree.Subfields

/-!
# Trees without implementations

Erasure removes the implementations of every selection of a tree and leaves all
else as it is.

* `Field.erase_eq`: what is left of a field.
* `Field.erase_withDerivedKeys`: keys can be derived before or after erasure.
* `Field.depth_erase_le`: erasure never deepens a tree.
-/

namespace SelectionModel

mutual

/-- The field without implementations, at any depth. -/
def Field.erase : Field → Field
  | ⟨aliasName, arguments, conditions, location, deprecation, description, fields, fragments, name,
      keys, type⟩ =>
    ⟨aliasName, arguments, conditions, location, deprecation, description, eraseFields fields,
      eraseFragments fragments, name, keys, type⟩

def eraseFields : List Field → List Field
  | [] => []
  | f :: fs => f.erase :: eraseFields fs

/-- The interfaces among fragments, without implementations at any depth. -/
def eraseFragments : List Fragment → List Fragment
  | [] => []
  | .interface ⟨conditions, description, fields, possibleTypes, keys, typeCondition⟩ :: gs =>
    .interface ⟨conditions, description, eraseFields fields, possibleTypes, keys, typeCondition⟩ ::
      eraseFragments gs
  | .implementation _ :: gs => eraseFragments gs

end

/-- The interface without implementations, at any depth. -/
def Interface.erase (i : Interface) : Interface := { i with fields := i.fields.map Field.erase }

/-- The selection without implementations, at any depth. -/
def SelectionSet.erase (s : SelectionSet) : SelectionSet :=
  { s with fields := eraseFields s.fields, fragments := eraseFragments s.fragments }

theorem eraseFields_eq_map (fs : List Field) : eraseFields fs = fs.map Field.erase := by
  induction fs with
  | nil => rfl
  | cons f fs ih => rw [eraseFields, List.map_cons, ih]

theorem eraseFragments_eq_map (gs : List Fragment) :
    eraseFragments gs = ((interfacesIn gs).map Interface.erase).map .interface := by
  induction gs with
  | nil => rfl
  | cons g gs ih =>
    cases g with
    | interface i =>
      cases i
      rw [eraseFragments, ih, eraseFields_eq_map]
      rfl
    | implementation m =>
      rw [eraseFragments, ih]
      rfl

@[simp] theorem interfacesIn_eraseFragments (gs : List Fragment) :
    interfacesIn (eraseFragments gs) = (interfacesIn gs).map Interface.erase := by
  rw [eraseFragments_eq_map, interfacesIn_map_interface]

@[simp] theorem eraseFragments_append (gs hs : List Fragment) :
    eraseFragments (gs ++ hs) = eraseFragments gs ++ eraseFragments hs := by
  simp [eraseFragments_eq_map]

/-- **What is left of a field.** -/
theorem Field.erase_eq (f : Field) :
    f.erase =
      { f with fields := f.fields.map Field.erase, fragments := eraseFragments f.fragments } := by
  cases f
  rw [erase, eraseFields_eq_map]

namespace Field

@[simp] theorem fields_erase (f : Field) : f.erase.fields = f.fields.map erase := by
  rw [erase_eq]

@[simp] theorem fragments_erase (f : Field) : f.erase.fragments = eraseFragments f.fragments := by
  rw [erase_eq]

@[simp] theorem keys_erase (f : Field) : f.erase.keys = f.keys := by
  rw [erase_eq]

@[simp] theorem type_erase (f : Field) : f.erase.type = f.type := by
  rw [erase_eq]

@[simp] theorem conditions_erase (f : Field) : f.erase.conditions = f.conditions := by
  rw [erase_eq]

@[simp] theorem responseName_erase (f : Field) : f.erase.responseName = f.responseName := by
  rw [erase_eq]
  rfl

theorem mem_subfields_erase {f c : Field} (h : c ∈ f.erase.subfields) :
    ∃ d ∈ f.subfields, c = d.erase := by
  rw [subfields, mem_subfieldsOf, fields_erase, fragments_erase, eraseFragments_eq_map] at h
  rcases h with h | ⟨g, hg, h⟩
  · obtain ⟨d, hd, rfl⟩ := List.mem_map.1 h
    exact ⟨d, mem_subfieldsOf.2 (.inl hd), rfl⟩
  · obtain ⟨i, hi, rfl⟩ := List.mem_map.1 hg
    obtain ⟨j, hj, rfl⟩ := List.mem_map.1 hi
    obtain ⟨d, hd, rfl⟩ := List.mem_map.1 h
    exact ⟨d, mem_subfieldsOf.2 (.inr ⟨_, mem_interfacesIn.1 hj, hd⟩), rfl⟩

/-- **Erasure never deepens a tree.** -/
theorem depth_erase_le {f : Field} {n : Nat} (h : f.depth ≤ n) : f.erase.depth ≤ n :=
  depth_le_of_subfields (fun _ _ hc => mem_subfields_erase hc) h

end Field

theorem fieldsDepth_erase_le (fs : List Field) :
    fieldsDepth (fs.map Field.erase) ≤ fieldsDepth fs := by
  rw [fieldsDepth_le]
  intro f hf
  obtain ⟨g, hg, rfl⟩ := List.mem_map.1 hf
  exact Field.depth_erase_le (fieldsDepth_le.1 (Nat.le_refl _) g hg)

/-! ## Derived keys -/

section Derived

variable {derive : SelectionKey → List SelectionKey}

theorem Interface.erase_withDerivedKeys {i : Interface}
    (h : ∀ f ∈ i.fields, (f.withDerivedKeys derive).erase = f.erase.withDerivedKeys derive) :
    (i.withDerivedKeys derive).erase = i.erase.withDerivedKeys derive := by
  have hmap := List.map_congr_left h
  simpa [erase, withDerivedKeys] using hmap

theorem eraseFragments_withDerivedKeys {gs : List Fragment}
    (h : ∀ i ∈ interfacesIn gs, ∀ f ∈ i.fields,
      (f.withDerivedKeys derive).erase = f.erase.withDerivedKeys derive) :
    eraseFragments (gs.map (Fragment.withDerivedKeys derive)) =
      (eraseFragments gs).map (Fragment.withDerivedKeys derive) := by
  simp only [eraseFragments_eq_map, interfacesIn_withDerivedKeys, List.map_map]
  refine List.map_congr_left fun i hi => ?_
  simp only [Function.comp_apply, Fragment.withDerivedKeys_interface]
  rw [Interface.erase_withDerivedKeys (h i hi)]

/-- **Keys can be derived before or after erasure.** -/
theorem Field.erase_withDerivedKeys (derive : SelectionKey → List SelectionKey) (f : Field) :
    (f.withDerivedKeys derive).erase = f.erase.withDerivedKeys derive := by
  induction f using Field.induction with
  | step f ih =>
    have hfields : ∀ c ∈ f.fields, _ := fun c hc => ih c (mem_subfieldsOf.2 (.inl hc))
    have hinterfaces : ∀ i ∈ interfacesIn f.fragments, ∀ c ∈ i.fields, _ := fun i hi c hc =>
      ih c (mem_subfieldsOf.2 (.inr ⟨_, mem_interfacesIn.1 hi, hc⟩))
    have hmap := List.map_congr_left hfields
    have hfragments := eraseFragments_withDerivedKeys hinterfaces
    -- implementations are gone on both sides, so only these two matter
    cases f
    simp only [withDerivedKeys, erase, fieldsWithDerivedKeys_eq_map,
      fragmentsWithDerivedKeys_eq_map, eraseFields_eq_map, List.map_map, hfragments, mk.injEq,
      true_and, and_true]
    exact hmap

theorem SelectionSet.erase_withDerivedKeys (derive : SelectionKey → List SelectionKey)
    (s : SelectionSet) : (s.withDerivedKeys derive).erase = s.erase.withDerivedKeys derive := by
  have hfields := List.map_congr_left fun (f : Field) (_ : f ∈ s.fields) =>
    Field.erase_withDerivedKeys derive f
  have hfragments : eraseFragments (s.fragments.map (Fragment.withDerivedKeys derive)) =
      (eraseFragments s.fragments).map (Fragment.withDerivedKeys derive) :=
    eraseFragments_withDerivedKeys fun _ _ f _ => Field.erase_withDerivedKeys derive f
  simp only [withDerivedKeys, erase, fieldsWithDerivedKeys_eq_map, fragmentsWithDerivedKeys_eq_map,
    eraseFields_eq_map, List.map_map, hfragments, mk.injEq, and_true]
  exact hfields

end Derived

end SelectionModel
