import SelectionModel.Tree.Field

/-!
# Fields at any depth

The subfields of a field are its own fields and those of its fragments. What is
said of every field at any depth of a tree is proved by going down the subfields,
which are nested less deep.

* `Field.depth_le_succ`: a field is as deep as its deepest subfield and one more.
* `Field.induction`: a property that a field has when its subfields have it holds
  of every field.
* `Field.everywhere_iff`: a property holds everywhere in a tree when it holds of
  the field at its root and everywhere below.
* `Field.subfields_withDerivedKeys`: deriving keys keeps the shape of a tree.
-/

namespace SelectionModel

/-- The interfaces among fragments. -/
def interfacesIn (fragments : List Fragment) : List Interface :=
  fragments.filterMap Fragment.interface?

/-- The implementations among fragments. -/
def implementationsIn (fragments : List Fragment) : List Implementation :=
  fragments.filterMap Fragment.implementation?

theorem mem_interfacesIn {fragments : List Fragment} {i : Interface} :
    i ∈ interfacesIn fragments ↔ .interface i ∈ fragments := by
  simp only [interfacesIn, List.mem_filterMap]
  constructor
  · rintro ⟨g, hg, h⟩
    cases g <;> simp_all [Fragment.interface?]
  · exact fun h => ⟨_, h, rfl⟩

theorem mem_implementationsIn {fragments : List Fragment} {m : Implementation} :
    m ∈ implementationsIn fragments ↔ .implementation m ∈ fragments := by
  simp only [implementationsIn, List.mem_filterMap]
  constructor
  · rintro ⟨g, hg, h⟩
    cases g <;> simp_all [Fragment.implementation?]
  · exact fun h => ⟨_, h, rfl⟩

@[simp] theorem interfacesIn_nil : interfacesIn [] = [] := rfl

@[simp] theorem implementationsIn_nil : implementationsIn [] = [] := rfl

@[simp] theorem interfacesIn_append (gs hs : List Fragment) :
    interfacesIn (gs ++ hs) = interfacesIn gs ++ interfacesIn hs :=
  List.filterMap_append

@[simp] theorem implementationsIn_append (gs hs : List Fragment) :
    implementationsIn (gs ++ hs) = implementationsIn gs ++ implementationsIn hs :=
  List.filterMap_append

@[simp] theorem interfacesIn_map_interface (is : List Interface) :
    interfacesIn (is.map .interface) = is := by
  simp [interfacesIn, List.filterMap_map, Function.comp_def, Fragment.interface?]

@[simp] theorem interfacesIn_map_implementation (ms : List Implementation) :
    interfacesIn (ms.map .implementation) = [] := by
  simp [interfacesIn, List.filterMap_map, Function.comp_def, Fragment.interface?]

@[simp] theorem implementationsIn_map_interface (is : List Interface) :
    implementationsIn (is.map .interface) = [] := by
  simp [implementationsIn, List.filterMap_map, Function.comp_def, Fragment.implementation?]

@[simp] theorem implementationsIn_map_implementation (ms : List Implementation) :
    implementationsIn (ms.map .implementation) = ms := by
  simp [implementationsIn, List.filterMap_map, Function.comp_def, Fragment.implementation?]

/-! ## Subfields -/

/-- The fields of some selection and those of its fragments. -/
def subfieldsOf (fields : List Field) (fragments : List Fragment) : List Field :=
  fields ++ fragments.flatMap Fragment.fields

/-- The fields right below a field, in its selection or in a fragment of it. -/
def Field.subfields (f : Field) : List Field := subfieldsOf f.fields f.fragments

theorem mem_subfieldsOf {fields : List Field} {fragments : List Fragment} {c : Field} :
    c ∈ subfieldsOf fields fragments ↔ c ∈ fields ∨ ∃ g ∈ fragments, c ∈ g.fields := by
  simp [subfieldsOf]

/-! ## Depth -/

theorem Fragment.depth_eq (g : Fragment) : g.depth = fieldsDepth g.fields := by
  rcases g with ⟨⟨⟩⟩ | ⟨⟨⟩⟩ <;> simp [Fragment.depth, Fragment.fields]

theorem fieldsDepth_le {fs : List Field} {n : Nat} :
    fieldsDepth fs ≤ n ↔ ∀ f ∈ fs, f.depth ≤ n := by
  induction fs with
  | nil => simp [fieldsDepth]
  | cons f fs ih => rw [fieldsDepth, Nat.max_le, ih, List.forall_mem_cons]

theorem fragmentsDepth_le {gs : List Fragment} {n : Nat} :
    fragmentsDepth gs ≤ n ↔ ∀ g ∈ gs, fieldsDepth g.fields ≤ n := by
  induction gs with
  | nil => simp [fragmentsDepth]
  | cons g gs ih => rw [fragmentsDepth, Nat.max_le, ih, Fragment.depth_eq, List.forall_mem_cons]

namespace Field

theorem depth_eq (f : Field) :
    f.depth = max (fieldsDepth f.fields) (fragmentsDepth f.fragments) + 1 := by
  cases f; simp [depth]

/-- **A field is as deep as its deepest subfield and one more.** -/
theorem depth_le_succ {f : Field} {n : Nat} : f.depth ≤ n + 1 ↔ ∀ c ∈ f.subfields, c.depth ≤ n := by
  rw [depth_eq, Nat.succ_le_succ_iff, Nat.max_le, fieldsDepth_le, fragmentsDepth_le]
  simp only [fieldsDepth_le, subfields, mem_subfieldsOf]
  constructor
  · rintro ⟨h1, h2⟩ c (hc | ⟨g, hg, hc⟩)
    · exact h1 c hc
    · exact h2 g hg c hc
  · exact fun h => ⟨fun c hc => h c (.inl hc), fun g hg c hc => h c (.inr ⟨g, hg, hc⟩)⟩

theorem depth_pos (f : Field) : 0 < f.depth := by
  rw [depth_eq]; omega

theorem depth_lt_of_mem {f c : Field} (h : c ∈ f.subfields) : c.depth < f.depth := by
  have hp := f.depth_pos
  have := (depth_le_succ (f := f) (n := f.depth - 1)).1 (by omega) c h
  omega

/-- **Induction on fields.** -/
theorem induction {P : Field → Prop} (step : ∀ f : Field, (∀ c ∈ f.subfields, P c) → P f)
    (f : Field) : P f :=
  step f fun c h => have := depth_lt_of_mem h; induction step c
termination_by f.depth

/-! ## Everywhere -/

/-- A field occurs in the tree of another one, at any depth. -/
inductive IsIn (g : Field) : Field → Prop where
  | root : IsIn g g
  | under {f c : Field} : c ∈ f.subfields → IsIn g c → IsIn g f

/-- A property holds of every field at any depth of a tree. -/
def Everywhere (P : Field → Prop) (f : Field) : Prop := ∀ g : Field, g.IsIn f → P g

variable {P : Field → Prop}

theorem everywhere_iff {f : Field} :
    f.Everywhere P ↔ P f ∧ ∀ c ∈ f.subfields, c.Everywhere P := by
  constructor
  · exact fun h => ⟨h f .root, fun c hc g hg => h g (.under hc hg)⟩
  · rintro ⟨h, hb⟩ g hg
    cases hg with
    | root => exact h
    | under hc hg => exact hb _ hc g hg

end Field

/-! ## Derived keys -/

section Derived

variable (derive : SelectionKey → List SelectionKey)

theorem fieldsWithDerivedKeys_eq_map (fs : List Field) :
    fieldsWithDerivedKeys derive fs = fs.map (Field.withDerivedKeys derive) := by
  induction fs with
  | nil => simp [fieldsWithDerivedKeys]
  | cons f fs ih => simp [fieldsWithDerivedKeys, ih]

theorem fragmentsWithDerivedKeys_eq_map (gs : List Fragment) :
    fragmentsWithDerivedKeys derive gs = gs.map (Fragment.withDerivedKeys derive) := by
  induction gs with
  | nil => simp [fragmentsWithDerivedKeys]
  | cons g gs ih => simp [fragmentsWithDerivedKeys, ih]

/-- An interface with derived keys added on every model of its tree. -/
def Interface.withDerivedKeys (i : Interface) : Interface :=
  { i with
    fields := i.fields.map (Field.withDerivedKeys derive)
    keys := deriveKeys derive i.keys }

/-- An implementation with derived keys added on every model of its tree. -/
def Implementation.withDerivedKeys (m : Implementation) : Implementation :=
  { m with
    fields := m.fields.map (Field.withDerivedKeys derive)
    keys := deriveKeys derive m.keys }

@[simp] theorem Fragment.withDerivedKeys_interface (i : Interface) :
    (Fragment.interface i).withDerivedKeys derive = .interface (i.withDerivedKeys derive) := by
  cases i; simp [Fragment.withDerivedKeys, Interface.withDerivedKeys, fieldsWithDerivedKeys_eq_map]

@[simp] theorem Fragment.withDerivedKeys_implementation (m : Implementation) :
    (Fragment.implementation m).withDerivedKeys derive =
      .implementation (m.withDerivedKeys derive) := by
  cases m
  simp [Fragment.withDerivedKeys, Implementation.withDerivedKeys, fieldsWithDerivedKeys_eq_map]

@[simp] theorem Fragment.fields_withDerivedKeys (g : Fragment) :
    (g.withDerivedKeys derive).fields = g.fields.map (Field.withDerivedKeys derive) := by
  cases g <;> simp [Fragment.fields, Interface.withDerivedKeys, Implementation.withDerivedKeys]

@[simp] theorem Fragment.keys_withDerivedKeys (g : Fragment) :
    (g.withDerivedKeys derive).keys = deriveKeys derive g.keys := by
  cases g <;> simp [Fragment.keys, Interface.withDerivedKeys, Implementation.withDerivedKeys]

theorem interfacesIn_withDerivedKeys (gs : List Fragment) :
    interfacesIn (gs.map (Fragment.withDerivedKeys derive)) =
      (interfacesIn gs).map (Interface.withDerivedKeys derive) := by
  rw [interfacesIn, interfacesIn, List.filterMap_map, List.map_filterMap]
  congr 1
  funext g
  cases g <;> simp [Fragment.interface?]

theorem implementationsIn_withDerivedKeys (gs : List Fragment) :
    implementationsIn (gs.map (Fragment.withDerivedKeys derive)) =
      (implementationsIn gs).map (Implementation.withDerivedKeys derive) := by
  rw [implementationsIn, implementationsIn, List.filterMap_map, List.map_filterMap]
  congr 1
  funext g
  cases g <;> simp [Fragment.implementation?]

theorem subfieldsOf_withDerivedKeys (fields : List Field) (fragments : List Fragment) :
    subfieldsOf (fields.map (Field.withDerivedKeys derive))
        (fragments.map (Fragment.withDerivedKeys derive)) =
      (subfieldsOf fields fragments).map (Field.withDerivedKeys derive) := by
  simp [subfieldsOf, List.flatMap_map, List.map_flatMap]

namespace Field

@[simp] theorem fields_withDerivedKeys (f : Field) :
    (f.withDerivedKeys derive).fields = f.fields.map (withDerivedKeys derive) := by
  cases f; simp [withDerivedKeys, fieldsWithDerivedKeys_eq_map]

@[simp] theorem fragments_withDerivedKeys (f : Field) :
    (f.withDerivedKeys derive).fragments = f.fragments.map (Fragment.withDerivedKeys derive) := by
  cases f; simp [withDerivedKeys, fragmentsWithDerivedKeys_eq_map]

@[simp] theorem keys_withDerivedKeys (f : Field) :
    (f.withDerivedKeys derive).keys = deriveKeys derive f.keys := by
  cases f; simp [withDerivedKeys]

@[simp] theorem type_withDerivedKeys (f : Field) : (f.withDerivedKeys derive).type = f.type := by
  cases f; simp [withDerivedKeys]

@[simp] theorem responseName_withDerivedKeys (f : Field) :
    (f.withDerivedKeys derive).responseName = f.responseName := by
  cases f; simp [withDerivedKeys, responseName]

/-- **Deriving keys keeps the shape of a tree.** -/
theorem subfields_withDerivedKeys (f : Field) :
    (f.withDerivedKeys derive).subfields = f.subfields.map (withDerivedKeys derive) := by
  rw [subfields, fields_withDerivedKeys, fragments_withDerivedKeys, subfieldsOf_withDerivedKeys]
  rfl

/-- What puts nothing else below a field than what it makes of the subfields never deepens a
tree. -/
theorem depth_le_of_subfields {g : Field → Field}
    (hg : ∀ f : Field, ∀ c ∈ (g f).subfields, ∃ d ∈ f.subfields, c = g d) {f : Field} {n : Nat}
    (h : f.depth ≤ n) : (g f).depth ≤ n := by
  induction f using Field.induction generalizing n with
  | step f ih =>
    obtain ⟨n, rfl⟩ : ∃ m, n = m + 1 := ⟨n - 1, by have := f.depth_pos; omega⟩
    rw [depth_le_succ] at h ⊢
    intro c hc
    obtain ⟨d, hd, rfl⟩ := hg f c hc
    exact ih d hd (h d hd)

theorem depth_withDerivedKeys_le {f : Field} {n : Nat} (h : f.depth ≤ n) :
    (f.withDerivedKeys derive).depth ≤ n := by
  refine depth_le_of_subfields (fun f c hc => ?_) h
  rw [subfields_withDerivedKeys] at hc
  obtain ⟨d, hd, rfl⟩ := List.mem_map.1 hc
  exact ⟨d, hd, rfl⟩

/-- What a derivation of keys makes of a property holds everywhere. -/
theorem everywhere_withDerivedKeys {P Q : Field → Prop}
    (make : ∀ f : Field, P f → Q (f.withDerivedKeys derive)) {f : Field} (h : f.Everywhere P) :
    (f.withDerivedKeys derive).Everywhere Q := by
  induction f using Field.induction with
  | step f ih =>
    obtain ⟨hf, hb⟩ := everywhere_iff.1 h
    rw [everywhere_iff, subfields_withDerivedKeys]
    refine ⟨make f hf, fun c hc => ?_⟩
    obtain ⟨d, hd, rfl⟩ := List.mem_map.1 hc
    exact ih d hd (hb d hd)

end Field

theorem mem_deriveKeys {derive : SelectionKey → List SelectionKey} {keys : OrderedSet SelectionKey}
    {k : SelectionKey} :
    k ∈ deriveKeys derive keys ↔ k ∈ keys ∨ ∃ l ∈ keys, k ∈ derive l := by
  rw [deriveKeys, OrderedSet.mem_insertAll, List.mem_flatMap]
  rfl

end Derived

end SelectionModel
