import SelectionModel.Proofs.Lowering.Derivation

/-!
# Derivable lowerings succeed

The rules of lowering leave no choice, and what lowering does under a bound that
suffices is what they say. So whatever is derivable is the result of lowering, and in
particular lowering succeeds.

* `lowerField_eq_ok`, `lowerFragment_eq_ok`: one field and one fragment, given what is
  below.
* `lowersPlace_iff`: **lowering gives what is derivable, and nothing else.**
-/

namespace SelectionModel

variable {pass : Pass} {registry : Registry}

/-- Where nothing is selected, nothing is derivable but nothing. -/
theorem LowersPlace.eq_nil {place : Place} {s : Selected} {fields : List Field}
    {fragments : List Fragment} (hs : s.selections = [])
    (h : LowersPlace pass registry place s fields fragments) : fields = [] ∧ fragments = [] := by
  obtain ⟨hf, hg⟩ := h
  have hgroups : s.groups = [] := by simp [Selected.groups, Selected.fields, hs]
  have hfragments : s.fragments = [] := by simp [Selected.fragments, hs]
  rw [hgroups] at hf
  rw [hfragments] at hg
  cases hf
  cases hg
  refine ⟨rfl, ?_⟩
  cases hp : pass.withImplementations <;>
    simp [assemble, hp, mergeInterfaces, implementations_nil]

/-- A field is lowered as its rule says. -/
theorem lowerField_eq_ok {lowerBelow : PlaceLowering} {type name : String}
    {keys : OrderedSet SelectionKey} {s : Selected} {group rest : List SelectedField}
    {first : SelectedField} {conditions : List Condition} {definition : FieldDefinition}
    {arguments : List Argument} {below : List Field} {fragments : List Fragment}
    (hi : includedFields s.file group = .ok (conditions, first :: rest))
    (hd : pass.schema.field? type first.head.name = some definition)
    (ha : coerceArguments pass.schema definition (s.location first.head.position)
      first.head.arguments = .ok arguments)
    (hn : (first :: rest).flatMap SelectedField.selections = [] → below = [] ∧ fragments = [])
    (hb : (first :: rest).flatMap SelectedField.selections ≠ [] →
      lowerBelow (Place.below keys name definition)
        (s.below ((first :: rest).flatMap SelectedField.selections)) = .ok (below, fragments)) :
    lowerField pass lowerBelow type keys s name group =
      .ok (some (first.head.lowered definition (s.location first.head.position) arguments
        conditions (Place.below keys name definition).keys below fragments)) := by
  rw [lowerField]
  refine Except.bind_eq_ok.2 ⟨_, hi, ?_⟩
  simp only [hd]
  refine Except.bind_eq_ok.2 ⟨_, ha, ?_⟩
  by_cases hs : (first :: rest).flatMap SelectedField.selections = []
  · obtain ⟨rfl, rfl⟩ := hn hs
    rw [if_pos (List.isEmpty_iff.2 hs)]
    rfl
  · rw [if_neg (mt List.isEmpty_iff.1 hs)]
    exact Except.bind_eq_ok.2 ⟨_, hb hs, rfl⟩

/-- A field of which nothing is included is left out. -/
theorem lowerField_eq_none {lowerBelow : PlaceLowering} {type name : String}
    {keys : OrderedSet SelectionKey} {s : Selected} {group : List SelectedField}
    {conditions : List Condition} (hi : includedFields s.file group = .ok (conditions, [])) :
    lowerField pass lowerBelow type keys s name group = .ok none := by
  rw [lowerField]
  exact Except.bind_eq_ok.2 ⟨_, hi, rfl⟩

/-- An entered fragment is lowered as its rule says. -/
theorem lowerFragment_eq_ok {lowerFields : FieldsLowering} {lowerFragments : FragmentsLowering}
    {around : Enclosing} {s : Selected} {f : SelectedFragment} {conditions : List Condition}
    {e : EnteredFragment} {own : List Field} {nested : List Interface}
    (hi : inclusion s.file f.directives = .ok (.under conditions))
    (he : enter registry s around.type f = .ok e) (ht : (pass.schema.type? e.typeCondition).isSome)
    (ho : lowerFields e.typeCondition (fragmentKeys around.keys e) e.selected = .ok own)
    (hn : lowerFragments (e.lowered pass around conditions own).enclosing e.selected =
      .ok nested) :
    lowerFragment pass registry lowerFields lowerFragments around s f =
      .ok (e.lowered pass around conditions own :: nested) := by
  rw [lowerFragment]
  refine Except.bind_eq_ok.2 ⟨_, hi, Except.bind_eq_ok.2 ⟨e, he, ?_⟩⟩
  rw [lowerEntered, if_neg (by simpa using Option.ne_none_iff_isSome.2 ht)]
  refine Except.bind_eq_ok.2 ⟨own, ho, ?_⟩
  exact Except.bind_eq_ok.2 ⟨nested, hn, rfl⟩

/-- A fragment that is excluded is left out. -/
theorem lowerFragment_eq_nil {lowerFields : FieldsLowering} {lowerFragments : FragmentsLowering}
    {around : Enclosing} {s : Selected} {f : SelectedFragment}
    (hi : inclusion s.file f.directives = .ok .never) :
    lowerFragment pass registry lowerFields lowerFragments around s f = .ok [] := by
  rw [lowerFragment]
  exact Except.bind_eq_ok.2 ⟨_, hi, rfl⟩

/-- Fields that are derivable are lowered one by one, given what is below them. -/
theorem LowersFields.exists_results (lowerBelow : PlaceLowering) {type : String}
    {keys : OrderedSet SelectionKey} {s : Selected} {gs : List (Group String SelectedField)}
    {fields : List Field}
    (hb : ∀ place (fs : List SelectedField) fields fragments, (∀ f ∈ fs, f ∈ s.fields) →
      fs.flatMap SelectedField.selections ≠ [] →
      LowersPlace pass registry place (s.below (fs.flatMap SelectedField.selections)) fields
        fragments →
      lowerBelow place (s.below (fs.flatMap SelectedField.selections)) = .ok (fields, fragments)) :
    LowersFields pass registry type keys s gs fields →
    (∀ g ∈ gs, ∀ f ∈ g.members, f ∈ s.fields) →
    ∃ results, List.Forall₂
      (fun g r => lowerField pass lowerBelow type keys s g.key g.members = .ok r) gs results ∧
      fields = results.filterMap id
  | .nil, _ => ⟨[], .nil, rfl⟩
  | .excluded hi hr, hs => by
    obtain ⟨results, hres, rfl⟩ := hr.exists_results lowerBelow hb fun g hg =>
      hs g (List.mem_cons_of_mem _ hg)
    exact ⟨none :: results, .cons (lowerField_eq_none hi) hres, rfl⟩
  | .field hi hd ha hbelow hr, hs => by
    obtain ⟨results, hres, rfl⟩ := hr.exists_results lowerBelow hb fun g hg =>
      hs g (List.mem_cons_of_mem _ hg)
    refine ⟨some _ :: results, .cons (lowerField_eq_ok hi hd ha (fun hn => ?_) fun hn => ?_) hres,
      rfl⟩
    · exact hbelow.eq_nil hn
    · refine hb _ _ _ _ (fun f hf => ?_) hn hbelow
      exact hs _ List.mem_cons_self f (included_subset hi f hf)

/-- Fragments that are derivable are lowered one by one, given what is in them. -/
theorem LowersFragments.exists_results {lowerFields : FieldsLowering}
    {lowerFragments : FragmentsLowering} {around : Enclosing} {s : Selected}
    {fs : List SelectedFragment} {is : List Interface} :
    LowersFragments pass registry around s fs is →
    (∀ f ∈ fs, ∀ type e, enter registry s type f = .ok e →
      (∀ type keys fields,
        LowersFields pass registry type keys e.selected e.selected.groups fields →
        lowerFields type keys e.selected = .ok fields) ∧
      (∀ around is, LowersFragments pass registry around e.selected e.selected.fragments is →
        lowerFragments around e.selected = .ok is)) →
    ∃ results, List.Forall₂
      (fun f r => lowerFragment pass registry lowerFields lowerFragments around s f = .ok r)
      fs results ∧ is = results.flatten
  | .nil, _ => ⟨[], .nil, rfl⟩
  | .excluded hi hr, hf => by
    obtain ⟨results, hres, rfl⟩ := hr.exists_results fun f h => hf f (List.mem_cons_of_mem _ h)
    exact ⟨[] :: results, .cons (lowerFragment_eq_nil hi) hres, rfl⟩
  | .entered hi he ht ho hn hr, hf => by
    obtain ⟨results, hres, rfl⟩ := hr.exists_results fun f h => hf f (List.mem_cons_of_mem _ h)
    obtain ⟨hlf, hlg⟩ := hf _ List.mem_cons_self _ _ he
    exact ⟨_ :: results, .cons (lowerFragment_eq_ok hi he ht (hlf _ _ _ ho) (hlg _ _ hn)) hres, rfl⟩

theorem lowerPlaceWith_eq_ok {lowerFields : FieldsLowering} {lowerFragments : FragmentsLowering}
    {place : Place} {s : Selected} {fields : List Field} {fragments : List Fragment}
    (hf : ∀ type keys fields, LowersFields pass registry type keys s s.groups fields →
      lowerFields type keys s = .ok fields)
    (hg : ∀ around is, LowersFragments pass registry around s s.fragments is →
      lowerFragments around s = .ok is)
    (h : LowersPlace pass registry place s fields fragments) :
    lowerPlaceWith pass lowerFields lowerFragments place s = .ok (fields, fragments) := by
  obtain ⟨ho, hi⟩ := h
  refine Except.bind_eq_ok.2 ⟨_, hf _ _ _ ho, ?_⟩
  exact Except.bind_eq_ok.2 ⟨_, hg _ _ hi, rfl⟩

/-- What is derivable is what lowering gives under a bound that suffices. -/
theorem lower_of_depth_le (pass : Pass) (n : Nat) : ∀ s : Selected, s.depth registry ≤ n →
    (∀ type keys fields, LowersFields pass registry type keys s s.groups fields →
      lowerFields pass registry n type keys s = .ok fields) ∧
    (∀ around is, LowersFragments pass registry around s s.fragments is →
      lowerFragments pass registry n around s = .ok is) := by
  induction n with
  | zero =>
    intro s hs
    -- selections without depth are none
    have hn : s.selections = [] := eq_nil_of_depth (Nat.le_zero.1 hs)
    have hg : s.groups = [] := by simp [Selected.groups, Selected.fields, hn]
    have hf : s.fragments = [] := by simp [Selected.fragments, hn]
    rw [hg, hf]
    constructor
    · intro type keys fields h
      cases h
      rfl
    · intro around is h
      cases h
      rfl
  | succ n ih =>
    intro s hs
    constructor
    · intro type keys fields h
      obtain ⟨results, hr, rfl⟩ := h.exists_results
        (lowerPlaceWith pass (lowerFields pass registry n) (lowerFragments pass registry n))
        (by
          intro place fs fields fragments hin hne hb
          -- what is below a field is nested less deep, so the smaller bound suffices
          obtain ⟨x, hx⟩ := List.exists_mem_of_ne_nil _ hne
          obtain ⟨f, hf, -⟩ := List.mem_flatMap.1 hx
          have hlt := depth_below_lt registry hin
            (List.ne_nil_of_mem (Selected.mem_fields.1 (hin f hf)))
          obtain ⟨hlf, hlg⟩ := ih _ (Nat.le_of_lt_succ (Nat.lt_of_lt_of_le hlt hs))
          exact lowerPlaceWith_eq_ok hlf hlg hb)
        fun g hg f hf => ((mem_members_iff hg).1 hf).1
      exact Except.bind_eq_ok.2 ⟨results, Except.mapM_eq_ok.2 hr, rfl⟩
    · intro around is h
      obtain ⟨results, hr, rfl⟩ := h.exists_results fun f hf type e he =>
        ih _ (Nat.le_of_lt_succ (Nat.lt_of_lt_of_le (depth_enter_lt hf he) hs))
      exact Except.bind_eq_ok.2 ⟨results, Except.mapM_eq_ok.2 hr, rfl⟩

/-- **Lowering gives what is derivable, and nothing else.** -/
theorem lowersPlace_iff {place : Place} {s : Selected} {fields : List Field}
    {fragments : List Fragment} :
    LowersPlace pass registry place s fields fragments ↔
      lowerPlace pass registry place s = .ok (fields, fragments) := by
  refine ⟨fun h => ?_, lowersPlace_of_ok⟩
  obtain ⟨hf, hg⟩ := lower_of_depth_le pass _ s (Nat.le_refl (s.depth registry))
  exact lowerPlaceWith_eq_ok hf hg h

end SelectionModel
