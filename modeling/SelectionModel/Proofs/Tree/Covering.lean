import SelectionModel.Proofs.Supply
import SelectionModel.Proofs.Tree.Erasure

/-!
# Covering

A field covers another one of its response name when it can stand in for it: it is
reached by all keys of the other, under all of its conditions, and has all that is
below the other, in its own fields as well as in its interfaces.

* `Field.covers_iff`: what it means for one field to cover another.
* `Field.Covers.refl`, `Field.Covers.trans`: **covering is a preorder.**
* `Field.covers_withDerivedKeys`, `Field.Covers.withDerivedKeys`: deriving keys
  gives more than there was, and more from more.
* `Field.covers_erase`: implementations do not count.
-/

namespace SelectionModel

/-- **A field covers another one**, at every depth. -/
def Field.Covers (g f : Field) : Prop :=
  g.responseName = f.responseName ∧ (∀ k ∈ f.keys, k ∈ g.keys) ∧
    (∀ c ∈ f.conditions, c ∈ g.conditions) ∧
    (∀ c, c ∈ f.fields → ∃ d ∈ g.fields, d.Covers c) ∧
    ∀ i, i ∈ interfacesIn f.fragments → ∃ j ∈ interfacesIn g.fragments,
      j.typeCondition = i.typeCondition ∧ (∀ k ∈ i.keys, k ∈ j.keys) ∧
        (∀ c ∈ i.conditions, c ∈ j.conditions) ∧ ∀ c, c ∈ i.fields → ∃ d ∈ j.fields, d.Covers c
termination_by f.depth
decreasing_by
  · exact Field.depth_lt_of_mem (mem_subfieldsOf.2 (.inl ‹_›))
  · exact Field.depth_lt_of_mem
      (mem_subfieldsOf.2 (.inr ⟨.interface i, mem_interfacesIn.1 ‹_›, ‹c ∈ i.fields›⟩))

/-- Every field of a list is covered by one in another list. -/
def CoversFields (gs fs : List Field) : Prop := Supplies Field.Covers gs fs

/-- **An interface covers another one** of its type condition. -/
structure Interface.Covers (j i : Interface) : Prop where
  typeCondition : j.typeCondition = i.typeCondition
  keys : ∀ k ∈ i.keys, k ∈ j.keys
  conditions : ∀ c ∈ i.conditions, c ∈ j.conditions
  fields : CoversFields j.fields i.fields

/-- Every interface of a list is covered by one in another list. -/
def CoversInterfaces (js is : List Interface) : Prop := Supplies Interface.Covers js is

theorem Interface.covers_iff {j i : Interface} :
    j.Covers i ↔ j.typeCondition = i.typeCondition ∧ (∀ k ∈ i.keys, k ∈ j.keys) ∧
      (∀ c ∈ i.conditions, c ∈ j.conditions) ∧ CoversFields j.fields i.fields :=
  ⟨fun h => ⟨h.typeCondition, h.keys, h.conditions, h.fields⟩, fun ⟨ht, hk, hc, hf⟩ =>
    ⟨ht, hk, hc, hf⟩⟩

namespace Field

/-- **What it means for one field to cover another.** -/
theorem covers_iff {g f : Field} :
    g.Covers f ↔ g.responseName = f.responseName ∧ (∀ k ∈ f.keys, k ∈ g.keys) ∧
      (∀ c ∈ f.conditions, c ∈ g.conditions) ∧ CoversFields g.fields f.fields ∧
      CoversInterfaces (interfacesIn g.fragments) (interfacesIn f.fragments) := by
  rw [Covers]
  simp only [CoversInterfaces, Supplies, Interface.covers_iff]
  rfl

namespace Covers

variable {g f : Field}

theorem responseName (h : g.Covers f) : g.responseName = f.responseName := (covers_iff.1 h).1

theorem keys (h : g.Covers f) : ∀ k ∈ f.keys, k ∈ g.keys := (covers_iff.1 h).2.1

theorem conditions (h : g.Covers f) : ∀ c ∈ f.conditions, c ∈ g.conditions :=
  (covers_iff.1 h).2.2.1

theorem fields (h : g.Covers f) : CoversFields g.fields f.fields := (covers_iff.1 h).2.2.2.1

theorem interfaces (h : g.Covers f) :
    CoversInterfaces (interfacesIn g.fragments) (interfacesIn f.fragments) :=
  (covers_iff.1 h).2.2.2.2

end Covers

end Field

/-! ## A preorder -/

/-- Fields and interfaces of a field are among its subfields, where an induction on
fields knows something. -/
theorem Field.forall_of_subfields {P : Field → Prop} {f : Field} (h : ∀ c ∈ f.subfields, P c) :
    (∀ c ∈ f.fields, P c) ∧ ∀ i ∈ interfacesIn f.fragments, ∀ c ∈ i.fields, P c :=
  ⟨fun c hc => h c (mem_subfieldsOf.2 (.inl hc)), fun _ hi c hc =>
    h c (mem_subfieldsOf.2 (.inr ⟨_, mem_interfacesIn.1 hi, hc⟩))⟩

theorem Field.Covers.refl (f : Field) : f.Covers f := by
  induction f using Field.induction with
  | step f ih =>
    obtain ⟨hf, hi⟩ := Field.forall_of_subfields ih
    refine Field.covers_iff.2 ⟨rfl, fun _ h => h, fun _ h => h, fun c hc => ⟨c, hc, hf c hc⟩, ?_⟩
    exact fun i h => ⟨i, h, rfl, fun _ h => h, fun _ h => h, fun c hc => ⟨c, hc, hi i h c hc⟩⟩

theorem Field.Covers.trans {h g f : Field} (hg : h.Covers g) (hf : g.Covers f) : h.Covers f := by
  induction f using Field.induction generalizing g h with
  | step f ih =>
    obtain ⟨ihf, ihi⟩ := Field.forall_of_subfields ih
    refine Field.covers_iff.2 ⟨hg.responseName.trans hf.responseName,
      fun k hk => hg.keys k (hf.keys k hk), fun c hc => hg.conditions c (hf.conditions c hc),
      ?_, ?_⟩
    · intro c hc
      obtain ⟨d, hd, hdc⟩ := hf.fields c hc
      obtain ⟨e, he, hed⟩ := hg.fields d hd
      exact ⟨e, he, ihf c hc hed hdc⟩
    · intro i hi
      obtain ⟨j, hj, hji⟩ := hf.interfaces i hi
      obtain ⟨l, hl, hlj⟩ := hg.interfaces j hj
      refine ⟨l, hl, hlj.typeCondition.trans hji.typeCondition,
        fun k hk => hlj.keys k (hji.keys k hk),
        fun c hc => hlj.conditions c (hji.conditions c hc), fun c hc => ?_⟩
      obtain ⟨d, hd, hdc⟩ := hji.fields c hc
      obtain ⟨e, he, hed⟩ := hlj.fields d hd
      exact ⟨e, he, ihi i hi c hc hed hdc⟩

instance : IsPreorder Field Field.Covers where
  refl := Field.Covers.refl
  trans _ _ _ := Field.Covers.trans

theorem Interface.Covers.trans {l j i : Interface} (hj : l.Covers j) (hi : j.Covers i) :
    l.Covers i where
  typeCondition := hj.typeCondition.trans hi.typeCondition
  keys k hk := hj.keys k (hi.keys k hk)
  conditions c hc := hj.conditions c (hi.conditions c hc)
  fields := Supplies.trans hj.fields hi.fields

instance : IsPreorder Interface Interface.Covers where
  refl _ := ⟨rfl, fun _ h => h, fun _ h => h, .of_subset fun _ h => h⟩
  trans _ _ _ := Interface.Covers.trans

/-! ## Derived keys -/

section Derived

variable {derive derive' : SelectionKey → List SelectionKey}

@[simp] theorem Field.conditions_withDerivedKeys (f : Field) :
    (f.withDerivedKeys derive).conditions = f.conditions := by
  cases f; simp [withDerivedKeys]

theorem deriveKeys_mono (hd : ∀ k, ∀ l ∈ derive k, l ∈ derive' k)
    {keys keys' : OrderedSet SelectionKey} (h : ∀ k ∈ keys, k ∈ keys') :
    ∀ k ∈ deriveKeys derive keys, k ∈ deriveKeys derive' keys' := by
  intro k hk
  rcases mem_deriveKeys.1 hk with hk | ⟨l, hl, hk⟩
  · exact mem_deriveKeys.2 (.inl (h k hk))
  · exact mem_deriveKeys.2 (.inr ⟨l, h l hl, hd l k hk⟩)

/-- **More keys are derived from more.** -/
theorem Field.Covers.withDerivedKeys (hd : ∀ k, ∀ l ∈ derive k, l ∈ derive' k) {g f : Field}
    (h : g.Covers f) : (g.withDerivedKeys derive').Covers (f.withDerivedKeys derive) := by
  induction f using Field.induction generalizing g with
  | step f ih =>
    obtain ⟨ihf, ihi⟩ := Field.forall_of_subfields ih
    rw [Field.covers_iff]
    simp only [responseName_withDerivedKeys, keys_withDerivedKeys, conditions_withDerivedKeys,
      fields_withDerivedKeys, fragments_withDerivedKeys, interfacesIn_withDerivedKeys]
    refine ⟨h.responseName, deriveKeys_mono hd h.keys, h.conditions, ?_, ?_⟩
    · intro c' hc'
      obtain ⟨c, hc, rfl⟩ := List.mem_map.1 hc'
      obtain ⟨d, hd, hdc⟩ := h.fields c hc
      exact ⟨_, List.mem_map_of_mem hd, ihf c hc hdc⟩
    · intro i' hi'
      obtain ⟨i, hi, rfl⟩ := List.mem_map.1 hi'
      obtain ⟨j, hj, hji⟩ := h.interfaces i hi
      refine ⟨_, List.mem_map_of_mem hj, hji.typeCondition, deriveKeys_mono hd hji.keys,
        hji.conditions, fun c' hc' => ?_⟩
      obtain ⟨c, hc, rfl⟩ := List.mem_map.1 hc'
      obtain ⟨d, hd, hdc⟩ := hji.fields c hc
      exact ⟨_, List.mem_map_of_mem hd, ihi i hi c hc hdc⟩

theorem CoversFields.withDerivedKeys (hd : ∀ k, ∀ l ∈ derive k, l ∈ derive' k) {gs fs : List Field}
    (h : CoversFields gs fs) :
    CoversFields (gs.map (Field.withDerivedKeys derive'))
      (fs.map (Field.withDerivedKeys derive)) := by
  intro f' hf'
  obtain ⟨f, hf, rfl⟩ := List.mem_map.1 hf'
  obtain ⟨g, hg, hgf⟩ := h f hf
  exact ⟨_, List.mem_map_of_mem hg, hgf.withDerivedKeys hd⟩

/-- **A field with derived keys covers the field.** -/
theorem Field.covers_withDerivedKeys (derive : SelectionKey → List SelectionKey) (f : Field) :
    (f.withDerivedKeys derive).Covers f := by
  induction f using Field.induction with
  | step f ih =>
    obtain ⟨ihf, ihi⟩ := Field.forall_of_subfields ih
    rw [Field.covers_iff]
    simp only [responseName_withDerivedKeys, keys_withDerivedKeys, conditions_withDerivedKeys,
      fields_withDerivedKeys, fragments_withDerivedKeys, interfacesIn_withDerivedKeys]
    refine ⟨trivial, fun k hk => mem_deriveKeys.2 (.inl hk), fun _ h => h,
      fun c hc => ⟨_, List.mem_map_of_mem hc, ihf c hc⟩, fun i hi => ?_⟩
    exact ⟨_, List.mem_map_of_mem hi, rfl, fun k hk => mem_deriveKeys.2 (.inl hk), fun _ h => h,
      fun c hc => ⟨_, List.mem_map_of_mem hc, ihi i hi c hc⟩⟩

theorem Interface.covers_withDerivedKeys (derive : SelectionKey → List SelectionKey)
    (i : Interface) : (i.withDerivedKeys derive).Covers i where
  typeCondition := rfl
  keys _ hk := mem_deriveKeys.2 (.inl hk)
  conditions _ hc := hc
  fields _ hf := ⟨_, List.mem_map_of_mem hf, Field.covers_withDerivedKeys derive _⟩

end Derived

/-! ## Implementations do not count -/

namespace Field

/-- What is left without implementations is covered. -/
theorem covers_erase (f : Field) : f.Covers f.erase := by
  induction f using Field.induction with
  | step f ih =>
    obtain ⟨ihf, ihi⟩ := forall_of_subfields ih
    rw [covers_iff]
    simp only [responseName_erase, keys_erase, conditions_erase, fields_erase, fragments_erase,
      interfacesIn_eraseFragments]
    refine ⟨trivial, fun _ h => h, fun _ h => h, ?_, ?_⟩
    · intro c' hc'
      obtain ⟨c, hc, rfl⟩ := List.mem_map.1 hc'
      exact ⟨c, hc, ihf c hc⟩
    · intro i' hi'
      obtain ⟨i, hi, rfl⟩ := List.mem_map.1 hi'
      refine ⟨i, hi, rfl, fun _ h => h, fun _ h => h, fun c' hc' => ?_⟩
      obtain ⟨c, hc, rfl⟩ := List.mem_map.1 hc'
      exact ⟨c, hc, ihi i hi c hc⟩

end Field

end SelectionModel
