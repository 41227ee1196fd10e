import SelectionModel.Lowering.Definitions
import SelectionModel.Proofs.Lowering.Built

/-!
# Patched selection sets

The default implementation of a fragment is reached under its own name, too. So the
keys that are rooted at the fragment are written once more under that name, on every
model of the tree, and nothing else is touched.

* `Field.Rekeyed`: trees of one shape that differ in keys only.
* `Field.rekeyed_withDerivedKeys`: deriving keys leaves all else as it is.
* `Field.withDerivedKeys_again`: keys that derive no others need not be derived twice.
* `patching_adds_keys`: **what patching adds to every model of a selection set.**
-/

namespace SelectionModel

/-! ## Trees that differ in keys -/

section Rekeyed

variable (R : OrderedSet SelectionKey → OrderedSet SelectionKey → Prop)

mutual

/-- **Two fields are the same but for keys**: at every place of their trees they have
the same data, and keys that are related. -/
inductive Field.Rekeyed : Field → Field → Prop where
  | intro {f : Field} {fields : List Field} {fragments : List Fragment}
      {keys : OrderedSet SelectionKey} :
    R f.keys keys → List.Forall₂ Field.Rekeyed f.fields fields →
    List.Forall₂ Fragment.Rekeyed f.fragments fragments →
    Field.Rekeyed f { f with fields := fields, fragments := fragments, keys := keys }

/-- Two fragments of one kind are the same but for keys. -/
inductive Fragment.Rekeyed : Fragment → Fragment → Prop where
  | interface {i : Interface} {fields : List Field} {keys : OrderedSet SelectionKey} :
    R i.keys keys → List.Forall₂ Field.Rekeyed i.fields fields →
    Fragment.Rekeyed (.interface i) (.interface { i with fields := fields, keys := keys })
  | implementation {m : Implementation} {fields : List Field} {keys : OrderedSet SelectionKey} :
    R m.keys keys → List.Forall₂ Field.Rekeyed m.fields fields →
    Fragment.Rekeyed (.implementation m)
      (.implementation { m with fields := fields, keys := keys })

end

/-- **Two selection sets are the same but for keys.** -/
inductive SelectionSet.Rekeyed : SelectionSet → SelectionSet → Prop where
  | intro {s : SelectionSet} {fields : List Field} {fragments : List Fragment}
      {keys : OrderedSet SelectionKey} :
    R s.keys keys → List.Forall₂ (Field.Rekeyed R) s.fields fields →
    List.Forall₂ (Fragment.Rekeyed R) s.fragments fragments →
    SelectionSet.Rekeyed s { s with fields := fields, fragments := fragments, keys := keys }

end Rekeyed

/-! ## Derived keys -/

section Derived

variable {derive : SelectionKey → List SelectionKey}
  {R : OrderedSet SelectionKey → OrderedSet SelectionKey → Prop}

theorem Field.withDerivedKeys_eq (derive : SelectionKey → List SelectionKey) (f : Field) :
    f.withDerivedKeys derive =
      { f with
        fields := f.fields.map (Field.withDerivedKeys derive)
        fragments := f.fragments.map (Fragment.withDerivedKeys derive)
        keys := deriveKeys derive f.keys } := by
  cases f
  simp [withDerivedKeys, fieldsWithDerivedKeys_eq_map, fragmentsWithDerivedKeys_eq_map]

theorem SelectionSet.withDerivedKeys_eq (derive : SelectionKey → List SelectionKey)
    (s : SelectionSet) :
    s.withDerivedKeys derive =
      { s with
        fields := s.fields.map (Field.withDerivedKeys derive)
        fragments := s.fragments.map (Fragment.withDerivedKeys derive)
        keys := deriveKeys derive s.keys } := by
  simp [withDerivedKeys, fieldsWithDerivedKeys_eq_map, fragmentsWithDerivedKeys_eq_map]

theorem SelectionSet.keys_withDerivedKeys (derive : SelectionKey → List SelectionKey)
    (s : SelectionSet) : (s.withDerivedKeys derive).keys = deriveKeys derive s.keys := rfl

/-- What holds of the elements of a list and their images holds of the two lists. -/
theorem forall₂_map_self {α β : Type} {S : α → β → Prop} {g : α → β} {l : List α}
    (h : ∀ a ∈ l, S a (g a)) : List.Forall₂ S l (l.map g) :=
  List.forall₂_map_right_iff.2 (List.forall₂_same.2 h)

/-- A fragment with derived keys differs in keys only, if its fields do. -/
theorem Fragment.rekeyed_withDerivedKeys (hR : ∀ keys, R keys (deriveKeys derive keys))
    {g : Fragment} (h : ∀ c ∈ g.fields, c.Rekeyed R (c.withDerivedKeys derive)) :
    g.Rekeyed R (g.withDerivedKeys derive) := by
  cases g with
  | interface i =>
    rw [Fragment.withDerivedKeys_interface]
    exact .interface (hR i.keys) (forall₂_map_self h)
  | implementation m =>
    rw [Fragment.withDerivedKeys_implementation]
    exact .implementation (hR m.keys) (forall₂_map_self h)

/-- **Deriving keys leaves all but the keys as it is.** -/
theorem Field.rekeyed_withDerivedKeys (hR : ∀ keys, R keys (deriveKeys derive keys)) (f : Field) :
    f.Rekeyed R (f.withDerivedKeys derive) := by
  induction f using Field.induction with
  | step f ih =>
    have hfields : ∀ c ∈ f.fields, c.Rekeyed R (c.withDerivedKeys derive) := by
      intro c hc
      exact ih c (mem_subfieldsOf.2 (.inl hc))
    have hfragments : ∀ g ∈ f.fragments, g.Rekeyed R (g.withDerivedKeys derive) := by
      intro g hg
      apply Fragment.rekeyed_withDerivedKeys hR
      intro c hc
      exact ih c (mem_subfieldsOf.2 (.inr ⟨g, hg, hc⟩))
    rw [Field.withDerivedKeys_eq]
    exact .intro (hR f.keys) (forall₂_map_self hfields) (forall₂_map_self hfragments)

theorem SelectionSet.rekeyed_withDerivedKeys (hR : ∀ keys, R keys (deriveKeys derive keys))
    (s : SelectionSet) : s.Rekeyed R (s.withDerivedKeys derive) := by
  have hfields : ∀ f ∈ s.fields, f.Rekeyed R (f.withDerivedKeys derive) := fun f _ =>
    f.rekeyed_withDerivedKeys hR
  have hfragments : ∀ g ∈ s.fragments, g.Rekeyed R (g.withDerivedKeys derive) := fun g _ =>
    Fragment.rekeyed_withDerivedKeys hR fun f _ => f.rekeyed_withDerivedKeys hR
  rw [SelectionSet.withDerivedKeys_eq]
  exact .intro (hR s.keys) (forall₂_map_self hfields) (forall₂_map_self hfragments)

/-! ## Deriving twice -/

/-- Keys that derive nothing but themselves need not be derived from once more. -/
theorem deriveKeys_again (hd : ∀ k, ∀ l ∈ derive k, ∀ m ∈ derive l, m = l)
    (keys : OrderedSet SelectionKey) :
    deriveKeys derive (deriveKeys derive keys) = deriveKeys derive keys := by
  apply OrderedSet.insertAll_of_forall_mem
  intro m hm
  obtain ⟨l, hl, hm⟩ := List.mem_flatMap.1 hm
  rcases mem_deriveKeys.1 hl with hl | ⟨k, hk, hl⟩
  · exact mem_deriveKeys.2 (.inr ⟨l, hl, hm⟩)
  -- what a derived key derives is that key
  · obtain rfl := hd k l hl m hm
    exact mem_deriveKeys.2 (.inr ⟨k, hk, hl⟩)

/-- A function that changes no image changes no list of images. -/
theorem map_again {α : Type} {g : α → α} {l : List α} (h : ∀ a ∈ l, g (g a) = g a) :
    (l.map g).map g = l.map g := by
  rw [List.map_map]
  exact List.map_congr_left h

theorem Fragment.withDerivedKeys_again (hk : ∀ keys, deriveKeys derive (deriveKeys derive keys) =
      deriveKeys derive keys) {g : Fragment}
    (h : ∀ c ∈ g.fields, (c.withDerivedKeys derive).withDerivedKeys derive =
      c.withDerivedKeys derive) :
    (g.withDerivedKeys derive).withDerivedKeys derive = g.withDerivedKeys derive := by
  have hfields := map_again h
  cases g with
  | interface i =>
    have he : (i.withDerivedKeys derive).withDerivedKeys derive = i.withDerivedKeys derive := by
      unfold Interface.withDerivedKeys
      rw [hk]
      congr 1
    simp only [Fragment.withDerivedKeys_interface, he]
  | implementation m =>
    have he : (m.withDerivedKeys derive).withDerivedKeys derive = m.withDerivedKeys derive := by
      unfold Implementation.withDerivedKeys
      rw [hk]
      congr 1
    simp only [Fragment.withDerivedKeys_implementation, he]

/-- **Keys need not be derived twice** on a tree, if not on a set of keys. -/
theorem Field.withDerivedKeys_again (hk : ∀ keys, deriveKeys derive (deriveKeys derive keys) =
      deriveKeys derive keys) (f : Field) :
    (f.withDerivedKeys derive).withDerivedKeys derive = f.withDerivedKeys derive := by
  induction f using Field.induction with
  | step f ih =>
    have hfields := map_again fun c hc => ih c (mem_subfieldsOf.2 (.inl hc))
    have hfragments := map_again fun g (hg : g ∈ f.fragments) =>
      Fragment.withDerivedKeys_again hk fun c hc => ih c (mem_subfieldsOf.2 (.inr ⟨g, hg, hc⟩))
    rw [withDerivedKeys_eq derive (f.withDerivedKeys derive), fields_withDerivedKeys,
      fragments_withDerivedKeys, keys_withDerivedKeys, hfields, hfragments, hk,
      withDerivedKeys_eq derive f]

theorem SelectionSet.withDerivedKeys_again (hk : ∀ keys,
      deriveKeys derive (deriveKeys derive keys) = deriveKeys derive keys) (s : SelectionSet) :
    (s.withDerivedKeys derive).withDerivedKeys derive = s.withDerivedKeys derive := by
  have hfields := map_again fun f (_ : f ∈ s.fields) => f.withDerivedKeys_again hk
  have hfragments := map_again fun g (_ : g ∈ s.fragments) =>
    Fragment.withDerivedKeys_again hk fun f _ => f.withDerivedKeys_again hk
  rw [withDerivedKeys_eq derive (s.withDerivedKeys derive), fields_withDerivedKeys,
    fragments_withDerivedKeys, keys_withDerivedKeys, hfields, hfragments, hk,
    withDerivedKeys_eq derive s]

end Derived

/-! ## The keys of a default implementation -/

/-- **A set of keys gains those of a default implementation**: the old keys come first
and in their order, and each of them that is rooted at the fragment is there once more
with the other root. -/
structure GainsKeys (fragmentRoot implementationRoot : String)
    (old new : OrderedSet SelectionKey) : Prop where
  keeps : old.toList <+: new.toList
  mem_iff : ∀ k, k ∈ new ↔ k ∈ old ∨
    ∃ l ∈ old, l.scope = .fragment ∧ l.root = fragmentRoot ∧ k = l.withRoot implementationRoot

theorem mem_implementationKeys {fragmentRoot implementationRoot : String} {k l : SelectionKey} :
    l ∈ implementationKeys fragmentRoot implementationRoot k ↔
      k.scope = .fragment ∧ k.root = fragmentRoot ∧ l = k.withRoot implementationRoot := by
  unfold implementationKeys
  by_cases h : k.scope = .fragment ∧ k.root = fragmentRoot
  · rw [if_pos h, List.mem_singleton]
    exact ⟨fun hl => ⟨h.1, h.2, hl⟩, fun hl => hl.2.2⟩
  · rw [if_neg h]
    exact ⟨fun hl => absurd hl List.not_mem_nil, fun hl => absurd ⟨hl.1, hl.2.1⟩ h⟩

theorem gainsKeys_deriveKeys (fragmentRoot implementationRoot : String)
    (keys : OrderedSet SelectionKey) :
    GainsKeys fragmentRoot implementationRoot keys
      (deriveKeys (implementationKeys fragmentRoot implementationRoot) keys) where
  keeps := OrderedSet.prefix_insertAll _ _
  mem_iff k := by simp only [mem_deriveKeys, mem_implementationKeys]

/-- A key with the root of the default implementation derives no other key. -/
theorem eq_of_mem_implementationKeys {fragmentRoot implementationRoot : String} :
    ∀ k, ∀ l ∈ implementationKeys fragmentRoot implementationRoot k,
      ∀ m ∈ implementationKeys fragmentRoot implementationRoot l, m = l := by
  intro k l hl m hm
  obtain ⟨-, -, rfl⟩ := mem_implementationKeys.1 hl
  obtain ⟨-, -, rfl⟩ := mem_implementationKeys.1 hm
  rfl

/-- **Patching adds the keys of the default implementation to every model of a selection
set**, at any depth, and changes nothing else. Patching once more changes nothing. -/
theorem patching_adds_keys (s : SelectionSet) (fragmentRoot implementationRoot : String) :
    s.Rekeyed (GainsKeys fragmentRoot implementationRoot)
        (patchSelectionSet s fragmentRoot implementationRoot) ∧
      patchSelectionSet (patchSelectionSet s fragmentRoot implementationRoot) fragmentRoot
          implementationRoot =
        patchSelectionSet s fragmentRoot implementationRoot := by
  constructor
  · exact s.rekeyed_withDerivedKeys (gainsKeys_deriveKeys fragmentRoot implementationRoot)
  · exact s.withDerivedKeys_again (deriveKeys_again eq_of_mem_implementationKeys)

end SelectionModel
