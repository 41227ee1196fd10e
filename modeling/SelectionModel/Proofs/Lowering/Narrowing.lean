import SelectionModel.Proofs.Lowering.Derivation
import SelectionModel.Proofs.Merging.Monotone

/-!
# Lowering with less around

The same selections can be lowered with fewer keys, fewer fields around them, and
inside of fewer definitions. This succeeds as well, and what it gives is covered by
what is lowered with all of these.

* `enter_within`: entering a fragment inside of fewer definitions.
* `EnteredFragment.lowered_covers`: the interface of an entered fragment.
* `LowersPlace.narrow`, `LowersFragments.narrow`: **all selections.**
-/

namespace SelectionModel

variable {pass : Pass} {registry : Registry}

/-! ## Fewer keys -/

theorem mem_fragmentKeys {keys : OrderedSet SelectionKey} {e : EnteredFragment}
    {k : SelectionKey} :
    k ∈ fragmentKeys keys e ↔ (∃ l ∈ keys, l.child (capitalize e.typeCondition) = k) ∨
      ∃ name, e.name = some name ∧ k = .ofRoot .fragment (capitalize name) := by
  rw [fragmentKeys]
  cases e.name <;>
    simp [OrderedSet.mem_ofList, rebasedKeys, OrderedSet.mem_def (s := keys)]

/-- Fewer keys around a fragment are fewer keys of it. -/
theorem fragmentKeys_mono {keys keys' : OrderedSet SelectionKey} (hk : ∀ k ∈ keys', k ∈ keys)
    (e : EnteredFragment) : ∀ k ∈ fragmentKeys keys' e, k ∈ fragmentKeys keys e := by
  intro k h
  refine mem_fragmentKeys.2 ((mem_fragmentKeys.1 h).imp_left ?_)
  rintro ⟨l, hl, rfl⟩
  exact ⟨l, hk l hl, rfl⟩

/-- Fewer keys of a selection are fewer keys of its fields. -/
theorem Place.below_mono {keys keys' : OrderedSet SelectionKey} (hk : ∀ k ∈ keys', k ∈ keys)
    (name : String) (definition : FieldDefinition) :
    ∀ k ∈ (Place.below keys' name definition).keys,
      k ∈ (Place.below keys name definition).keys := by
  intro k h
  obtain ⟨l, hl, rfl⟩ := OrderedSet.mem_map.1 h
  exact OrderedSet.mem_map.2 ⟨l, hk l hl, rfl⟩

/-! ## Fewer definitions -/

/-- The selections, reached through other definitions. -/
def Selected.within (s : Selected) (enclosing : List String) : Selected :=
  { s with enclosing := enclosing }

/-- The entered fragment, reached through other definitions. -/
def EnteredFragment.within (e : EnteredFragment) (enclosing : List String) : EnteredFragment :=
  { e with selected := e.selected.within enclosing }

/-- **A fragment is entered inside of fewer definitions**, where it stands for the same. -/
theorem enter_within {s : Selected} {type : String} {f : SelectedFragment} {e : EnteredFragment}
    {enclosing : List String} (hs : ∀ name ∈ enclosing, name ∈ s.enclosing)
    (h : enter registry s type f = .ok e) :
    ∃ enclosing', (∀ name ∈ enclosing', name ∈ e.selected.enclosing) ∧
      enter registry (s.within enclosing) type f =
        .ok (e.within enclosing') := by
  rcases enter_eq_ok.1 h with ⟨condition, selections, ht, rfl⟩ | ⟨name, d, ht, hd, hn, rfl⟩
  · exact ⟨enclosing, hs, enter_eq_ok.2 (.inl ⟨condition, selections, ht, rfl⟩)⟩
  · refine ⟨d.name :: enclosing, ?_, enter_eq_ok.2 (.inr ⟨name, d, ht, hd, mt (hs name) hn, rfl⟩)⟩
    exact fun x hx => List.mem_cons.2 ((List.mem_cons.1 hx).imp_right (hs x))

/-! ## Interfaces -/

/-- The surroundings of fragments, with less in them. -/
structure Enclosing.Narrows (narrow around : Enclosing) : Prop where
  type : narrow.type = around.type
  keys : ∀ k ∈ narrow.keys, k ∈ around.keys
  covered : CoversFields around.fields narrow.fields
  tidy : TidyFields narrow.fields

/-- The fragments in an interface that is covered have less around them. -/
theorem Interface.Covers.narrows {i j : Interface} (h : j.Covers i) (htidy : TidyFields i.fields) :
    i.enclosing.Narrows j.enclosing :=
  ⟨h.typeCondition.symm, h.keys, h.fields, htidy⟩

theorem LowersFields.tidyFields {type : String} {keys : OrderedSet SelectionKey} {s : Selected}
    {fields : List Field} (h : LowersFields pass registry type keys s s.groups fields) :
    TidyFields fields :=
  ⟨h.nodup_names, tidy_invariant.forall_fields h⟩

theorem TidyFields.inheritFields {fs : List Field} (h : TidyFields fs)
    (keys : OrderedSet SelectionKey) (typeCondition : String) :
    TidyFields (inheritFields fs (rebasedKeys keys typeCondition)) where
  names := ((h.upTo (Nat.le_refl _)).inheritFields keys typeCondition).names
  tidy := forall_fields_inherit (keptByKeys_tidy.everywhere.inherited _) h.tidy

theorem TidyFields.mergeFields {fs : List Field} (h : ∀ f ∈ fs, f.Everywhere Field.Tidy) :
    TidyFields (mergeFields pass fs) :=
  ⟨nodup_names_mergeFields _, keeps_everywhere (fun _ _ _ _ => keptByKeys_tidy.inherited _)
    (fun a b _ _ => tidy_mergeFieldPair a b) _ h⟩

/-- What is below a field makes one lowered field cover another. -/
theorem FieldHead.lowered_covers {head : FieldHead} {definition : FieldDefinition}
    {location : SourceLocation} {arguments : List Argument} {conditions : List Condition}
    {keys keys' : OrderedSet SelectionKey} {fields fields' : List Field}
    {fragments fragments' : List Fragment} (hk : ∀ k ∈ keys', k ∈ keys)
    (hf : CoversFields fields fields')
    (hi : CoversInterfaces (interfacesIn fragments) (interfacesIn fragments')) :
    (head.lowered definition location arguments conditions keys fields fragments).Covers
      (head.lowered definition location arguments conditions keys' fields' fragments') :=
  Field.covers_iff.2 ⟨rfl, hk, fun _ hc => hc, hf, hi⟩

section Entered

variable {around narrow : Enclosing} {own own' : List Field} (e : EnteredFragment) (pass : Pass)

/-- **The interface of an entered fragment** covers the one with less around it. -/
theorem EnteredFragment.lowered_covers (enclosing : List String) (h : narrow.Narrows around)
    (ho : CoversFields own own') (htidy : TidyFields own') (conditions : List Condition) :
    (e.lowered pass around conditions own).Covers
      ((e.within enclosing).lowered pass narrow conditions own') where
  typeCondition := rfl
  keys := fragmentKeys_mono h.keys e
  conditions _ hc := hc
  fields := coversFields_mergeFields (h.tidy.inheritFields _ _) htidy
    (h.covered.inheritFields h.keys _) ho

theorem EnteredFragment.tidyFields_lowered (h : TidyFields narrow.fields)
    (htidy : TidyFields own') (conditions : List Condition) :
    TidyFields (e.lowered pass narrow conditions own').fields :=
  .mergeFields (List.forall_mem_append.2 ⟨(h.inheritFields _ _).tidy, htidy.tidy⟩)

end Entered

/-! ## All selections -/

mutual

/-- **Selections at a place are lowered with fewer keys**, to less. -/
theorem LowersPlace.narrow {place : Place} {s : Selected} {fields : List Field}
    {fragments : List Fragment} :
    LowersPlace pass registry place s fields fragments →
      ∀ (place' : Place) {enclosing : List String}, place'.type = place.type →
      (∀ k ∈ place'.keys, k ∈ place.keys) →
      (∀ name ∈ enclosing, name ∈ s.enclosing) →
      ∃ fields' fragments',
        LowersPlace pass registry place' (s.within enclosing) fields' fragments' ∧
        CoversFields fields fields' ∧
        CoversInterfaces (interfacesIn fragments) (interfacesIn fragments')
  | .intro hf hg, place', enclosing, ht, hk, hs => by
    obtain ⟨fields', hf', hcf⟩ := hf.narrow hk hs
    rw [← ht] at hf'
    have htidy : TidyFields fields' := LowersFields.tidyFields hf'
    have hn : (place'.enclosing pass fields').Narrows (place.enclosing pass _) :=
      ⟨ht, hk, hcf, htidy⟩
    obtain ⟨is, hg', hti, hci⟩ := hg.narrow hn hs
    refine ⟨fields', _, .intro hf' hg', hcf, ?_⟩
    rw [interfacesIn_assemble, interfacesIn_assemble]
    exact coversInterfaces_of_forall₂ hti hci (List.Sublist.refl _)

theorem LowersFields.narrow {type : String} {keys : OrderedSet SelectionKey} {s : Selected}
    {gs : List (Group String SelectedField)} {fields : List Field} :
    LowersFields pass registry type keys s gs fields →
      ∀ {keys' : OrderedSet SelectionKey} {enclosing : List String}, (∀ k ∈ keys', k ∈ keys) →
      (∀ name ∈ enclosing, name ∈ s.enclosing) →
      ∃ fields', LowersFields pass registry type keys' (s.within enclosing) gs fields' ∧
        CoversFields fields fields'
  | .nil, _, _, _, _ => ⟨[], .nil, .of_subset fun _ h => h⟩
  | .excluded hi hr, _, _, hk, hs => by
    obtain ⟨fields', hr', hc⟩ := hr.narrow hk hs
    exact ⟨fields', .excluded hi hr', hc⟩
  | .field hi hd ha hb hr, keys', _, hk, hs => by
    obtain ⟨fields', hr', hc⟩ := hr.narrow hk hs
    obtain ⟨below, fragments, hb', hcf, hci⟩ :=
      hb.narrow (Place.below keys' _ _) rfl (Place.below_mono hk _ _) hs
    refine ⟨_, .field hi hd ha hb' hr', fun f hf => ?_⟩
    rcases List.mem_cons.1 hf with rfl | hf
    · exact ⟨_, List.mem_cons_self, FieldHead.lowered_covers (Place.below_mono hk _ _) hcf hci⟩
    · obtain ⟨g, hg, hgf⟩ := hc f hf
      exact ⟨g, List.mem_cons_of_mem _ hg, hgf⟩

theorem LowersFragments.narrow {around : Enclosing} {s : Selected} {fs : List SelectedFragment}
    {is : List Interface} :
    LowersFragments pass registry around s fs is →
      ∀ {narrow : Enclosing} {enclosing : List String}, narrow.Narrows around →
      (∀ name ∈ enclosing, name ∈ s.enclosing) →
      ∃ is', LowersFragments pass registry narrow (s.within enclosing) fs is' ∧
        (∀ i ∈ is', TidyFields i.fields) ∧ List.Forall₂ (fun i' i => i.Covers i') is' is
  | .nil, _, _, _, _ => ⟨[], .nil, by simp, .nil⟩
  | .excluded hi hr, _, _, hn, hs => by
    obtain ⟨is', hr', ht, hc⟩ := hr.narrow hn hs
    exact ⟨is', .excluded hi hr', ht, hc⟩
  | .entered (e := e) hi he ht ho hnested hr, _, _, hn, hs => by
    obtain ⟨is', hr', htr, hcr⟩ := hr.narrow hn hs
    -- the fragment has fewer keys, and its interface less to pass on to those in it
    obtain ⟨enclosing', hs', he'⟩ := enter_within hs he
    rw [← hn.type] at he'
    obtain ⟨own', ho', hco⟩ := ho.narrow (fragmentKeys_mono hn.keys e) hs'
    have htidy : TidyFields own' := LowersFields.tidyFields ho'
    have hcover := e.lowered_covers pass enclosing' hn hco htidy
    have htl := (e.within enclosing').tidyFields_lowered pass hn.tidy htidy
    obtain ⟨nested', hnested', htn, hcn⟩ := hnested.narrow ((hcover _).narrows (htl _)) hs'
    refine ⟨_, .entered hi he' ht ho' hnested' hr', ?_, ?_⟩
    · exact List.forall_mem_append.2 ⟨List.forall_mem_cons.2 ⟨htl _, htn⟩, htr⟩
    · refine List.rel_append ?_ hcr
      refine List.Forall₂.cons ?_ hcn
      exact hcover _

end

end SelectionModel
