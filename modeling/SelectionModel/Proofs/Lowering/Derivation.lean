import SelectionModel.Lowering.Selections
import SelectionModel.Proofs.Lowering.Depth
import SelectionModel.Proofs.Lowering.Inclusion
import SelectionModel.Proofs.Merging.Implementations
import SelectionModel.Proofs.Steps

/-!
# Lowering as a relation

The rules by which selections are lowered, without a bound on their depth. What
is said of all lowered trees is proved by induction on these derivations, one
case for each rule.

* `lowersPlace_of_ok`: **what lowering gives is derivable.**
-/

namespace SelectionModel

/-! ## The rules -/

/-- The fields among selections, grouped by response name. -/
def Selected.groups (s : Selected) : List (Group String SelectedField) :=
  groupBy (fun f => f.head.responseName) s.fields

/-- The place of the selections below a field. -/
def Place.below (keys : OrderedSet SelectionKey) (name : String) (definition : FieldDefinition) :
    Place :=
  ⟨capitalize name, definition.type.innermostName, keys.map (·.child (capitalize name))⟩

/-- The field that selections are lowered to, of which the first speaks for all. -/
def FieldHead.lowered (head : FieldHead) (definition : FieldDefinition) (location : SourceLocation)
    (arguments : List Argument) (conditions : List Condition) (keys : OrderedSet SelectionKey)
    (fields : List Field) (fragments : List Fragment) : Field where
  aliasName := head.aliasName
  arguments := arguments
  conditions := conditions
  location := location
  deprecation := definition.deprecation?
  description := definition.description
  fields := fields
  fragments := fragments
  name := head.name
  keys := keys
  type := definition.type

@[simp] theorem FieldHead.responseName_lowered (head : FieldHead) (definition : FieldDefinition)
    (location : SourceLocation) (arguments : List Argument) (conditions : List Condition)
    (keys : OrderedSet SelectionKey) (fields : List Field) (fragments : List Fragment) :
    (head.lowered definition location arguments conditions keys fields fragments).responseName =
      head.responseName := rfl

/-- The interface that an entered fragment is lowered to. -/
def EnteredFragment.lowered (pass : Pass) (around : Enclosing) (conditions : List Condition)
    (e : EnteredFragment) (ownFields : List Field) : Interface where
  conditions := conditions
  description := pass.schema.description? e.typeCondition
  fields :=
    mergeFields pass
      (inheritFields around.fields (rebasedKeys around.keys e.typeCondition) ++ ownFields)
  possibleTypes := (pass.schema.possibleTypes e.typeCondition).inter around.possibleTypes
  keys := fragmentKeys around.keys e
  typeCondition := e.typeCondition

/-- The selection of an interface, which the fragments in it are enclosed by. -/
def Interface.enclosing (i : Interface) : Enclosing :=
  ⟨i.fields, i.possibleTypes, i.keys, i.typeCondition⟩

/-- The selection at a place, which the fragments in it are enclosed by. -/
def Place.enclosing (pass : Pass) (place : Place) (fields : List Field) : Enclosing :=
  ⟨fields, pass.schema.possibleTypes place.type, place.keys, place.type⟩

/-- The site at which the fragments of a place are put together. -/
def Place.site (pass : Pass) (place : Place) (fields : List Field) : Site :=
  ⟨fields, place.suffix, pass.schema.possibleTypes place.type, place.keys⟩

mutual

/-- The selections at a place are lowered to fields and fragments. -/
inductive LowersPlace (pass : Pass) (registry : Registry) :
    Place → Selected → List Field → List Fragment → Prop where
  | intro {place : Place} {s : Selected} {fields : List Field} {interfaces : List Interface} :
    LowersFields pass registry place.type place.keys s s.groups fields →
    LowersFragments pass registry (place.enclosing pass fields) s s.fragments interfaces →
    LowersPlace pass registry place s fields
      (assemble pass (mergeFields pass) (mergeInterfaces (mergeFields pass) interfaces)
        (place.site pass fields))

/-- Groups of selected fields on a type are lowered to fields. -/
inductive LowersFields (pass : Pass) (registry : Registry) :
    String → OrderedSet SelectionKey → Selected → List (Group String SelectedField) → List Field →
      Prop where
  | nil {type : String} {keys : OrderedSet SelectionKey} {s : Selected} :
    LowersFields pass registry type keys s [] []
  | excluded {type : String} {keys : OrderedSet SelectionKey} {s : Selected}
      {g : Group String SelectedField} {gs : List (Group String SelectedField)}
      {fields : List Field} {conditions : List Condition} :
    includedFields s.file g.members = .ok (conditions, []) →
    LowersFields pass registry type keys s gs fields →
    LowersFields pass registry type keys s (g :: gs) fields
  | field {type : String} {keys : OrderedSet SelectionKey} {s : Selected}
      {g : Group String SelectedField} {gs : List (Group String SelectedField)}
      {fields : List Field} {conditions : List Condition} {first : SelectedField}
      {rest : List SelectedField} {definition : FieldDefinition} {arguments : List Argument}
      {below : List Field} {fragments : List Fragment} :
    includedFields s.file g.members = .ok (conditions, first :: rest) →
    pass.schema.field? type first.head.name = some definition →
    coerceArguments pass.schema definition (s.location first.head.position) first.head.arguments =
      .ok arguments →
    LowersPlace pass registry (Place.below keys g.key definition)
      (s.below ((first :: rest).flatMap SelectedField.selections)) below fragments →
    LowersFields pass registry type keys s gs fields →
    LowersFields pass registry type keys s (g :: gs)
      (first.head.lowered definition (s.location first.head.position) arguments conditions
        (Place.below keys g.key definition).keys below fragments :: fields)

/-- Fragments among selections are lowered to interfaces, one for each of them
and of the fragments in it. -/
inductive LowersFragments (pass : Pass) (registry : Registry) :
    Enclosing → Selected → List SelectedFragment → List Interface → Prop where
  | nil {around : Enclosing} {s : Selected} : LowersFragments pass registry around s [] []
  | excluded {around : Enclosing} {s : Selected} {f : SelectedFragment}
      {fs : List SelectedFragment} {interfaces : List Interface} :
    inclusion s.file f.directives = .ok .never →
    LowersFragments pass registry around s fs interfaces →
    LowersFragments pass registry around s (f :: fs) interfaces
  | entered {around : Enclosing} {s : Selected} {f : SelectedFragment}
      {fs : List SelectedFragment} {interfaces : List Interface} {conditions : List Condition}
      {e : EnteredFragment} {own : List Field} {nested : List Interface} :
    inclusion s.file f.directives = .ok (.under conditions) →
    enter registry s around.type f = .ok e →
    (pass.schema.type? e.typeCondition).isSome →
    LowersFields pass registry e.typeCondition (fragmentKeys around.keys e) e.selected
      e.selected.groups own →
    LowersFragments pass registry (e.lowered pass around conditions own).enclosing e.selected
      e.selected.fragments nested →
    LowersFragments pass registry around s fs interfaces →
    LowersFragments pass registry around s (f :: fs)
      (e.lowered pass around conditions own :: nested ++ interfaces)

end

/-! ## What lowering gives is derivable -/

variable {pass : Pass} {registry : Registry}

theorem lowersPlace_nil (place : Place) (s : Selected) :
    LowersPlace pass registry place (s.below []) [] [] := by
  have h : LowersPlace pass registry place (s.below []) _ _ := .intro .nil .nil
  cases hp : pass.withImplementations <;>
    simpa [assemble, hp, mergeInterfaces, implementations_nil] using h

/-- A field that lowering gives, by the selections that are part of it. -/
theorem lowerField_cases {lowerBelow : PlaceLowering} {type : String}
    {keys : OrderedSet SelectionKey} {s : Selected} {name : String} {group : List SelectedField}
    {result : Option Field}
    (h : lowerField pass lowerBelow type keys s name group = .ok result) :
    ∃ conditions included, includedFields s.file group = .ok (conditions, included) ∧
      match included with
      | [] => result = none
      | first :: rest => ∃ definition arguments below fragments,
          pass.schema.field? type first.head.name = some definition ∧
          coerceArguments pass.schema definition (s.location first.head.position)
            first.head.arguments = .ok arguments ∧
          ((first :: rest).flatMap SelectedField.selections = [] ∧ below = [] ∧ fragments = [] ∨
            lowerBelow (Place.below keys name definition)
              (s.below ((first :: rest).flatMap SelectedField.selections)) =
                .ok (below, fragments)) ∧
          result = some (first.head.lowered definition (s.location first.head.position) arguments
            conditions (Place.below keys name definition).keys below fragments) := by
  rw [lowerField, Except.bind_eq_ok] at h
  obtain ⟨⟨conditions, included⟩, hi, h⟩ := h
  refine ⟨conditions, included, hi, ?_⟩
  cases included with
  | nil => exact (Except.ok.inj h).symm
  | cons first rest =>
    simp only at h ⊢
    split at h
    · exact absurd h Except.throw_ne_ok
    next definition hd =>
    rw [Except.bind_eq_ok] at h
    obtain ⟨arguments, ha, h⟩ := h
    split at h
    · next he =>
      exact ⟨definition, arguments, [], [], hd, ha, .inl ⟨List.isEmpty_iff.1 he, rfl, rfl⟩,
        (Except.ok.inj h).symm⟩
    · rw [Except.bind_eq_ok] at h
      obtain ⟨⟨below, fragments⟩, hb, h⟩ := h
      exact ⟨definition, arguments, below, fragments, hd, ha, .inr hb, (Except.ok.inj h).symm⟩

/-- Interfaces that lowering a fragment gives. -/
theorem lowerFragment_cases {lowerFields : FieldsLowering} {lowerFragments : FragmentsLowering}
    {around : Enclosing} {s : Selected} {f : SelectedFragment} {result : List Interface}
    (h : lowerFragment pass registry lowerFields lowerFragments around s f = .ok result) :
    inclusion s.file f.directives = .ok .never ∧ result = [] ∨
      ∃ conditions e own nested, inclusion s.file f.directives = .ok (.under conditions) ∧
        enter registry s around.type f = .ok e ∧ (pass.schema.type? e.typeCondition).isSome ∧
        lowerFields e.typeCondition (fragmentKeys around.keys e) e.selected = .ok own ∧
        lowerFragments (e.lowered pass around conditions own).enclosing e.selected = .ok nested ∧
        result = e.lowered pass around conditions own :: nested := by
  rw [lowerFragment, Except.bind_eq_ok] at h
  obtain ⟨inc, hi, h⟩ := h
  cases inc with
  | never => exact .inl ⟨hi, (Except.ok.inj h).symm⟩
  | under conditions =>
    simp only at h
    rw [Except.bind_eq_ok] at h
    obtain ⟨e, he, h⟩ := h
    rw [lowerEntered] at h
    cases ht : pass.schema.type? e.typeCondition with
    | none =>
      rw [ht] at h
      exact absurd (Except.bind_eq_ok.1 h) (by simp)
    | some t =>
      -- past the check of the type condition there are two steps that can fail
      simp only [ht, Option.isNone_some, Bool.false_eq_true, if_false] at h
      obtain ⟨-, -, h⟩ := Except.bind_eq_ok.1 h
      obtain ⟨own, ho, h⟩ := Except.bind_eq_ok.1 h
      obtain ⟨nested, hn, h⟩ := Except.bind_eq_ok.1 h
      exact .inr ⟨conditions, e, own, nested, hi, he, by rw [ht]; rfl, ho, hn,
        (Except.ok.inj h).symm⟩

theorem lowersPlace_of_lowerPlaceWith {lowerFields : FieldsLowering}
    {lowerFragments : FragmentsLowering} {place : Place} {s : Selected} {fields : List Field}
    {fragments : List Fragment}
    (hf : ∀ type keys fields, lowerFields type keys s = .ok fields →
      LowersFields pass registry type keys s s.groups fields)
    (hg : ∀ around is, lowerFragments around s = .ok is →
      LowersFragments pass registry around s s.fragments is)
    (h : lowerPlaceWith pass lowerFields lowerFragments place s = .ok (fields, fragments)) :
    LowersPlace pass registry place s fields fragments := by
  obtain ⟨own, ho, h⟩ := Except.bind_eq_ok.1 h
  obtain ⟨is, hi, h⟩ := Except.bind_eq_ok.1 h
  obtain ⟨rfl, rfl⟩ := Prod.mk.inj (Except.ok.inj h)
  exact .intro (hf _ _ _ ho) (hg _ _ hi)

/-- Groups that are lowered one by one, given a lowering of what is below them. -/
theorem lowersFields_of_results {lowerBelow : PlaceLowering} {type : String}
    {keys : OrderedSet SelectionKey} {s : Selected} {gs : List (Group String SelectedField)}
    {results : List (Option Field)}
    (hb : ∀ place (fs : List SelectedField) fields fragments, fs ≠ [] → (∀ f ∈ fs, f ∈ s.fields) →
      lowerBelow place (s.below (fs.flatMap SelectedField.selections)) = .ok (fields, fragments) →
      LowersPlace pass registry place (s.below (fs.flatMap SelectedField.selections)) fields
        fragments)
    (hs : ∀ g ∈ gs, ∀ f ∈ g.members, f ∈ s.fields)
    (h : List.Forall₂ (fun g r => lowerField pass lowerBelow type keys s g.key g.members = .ok r)
      gs results) :
    LowersFields pass registry type keys s gs (results.filterMap id) := by
  induction h with
  | nil => exact .nil
  | @cons g r gs rs hg _ ih =>
    have ih := ih fun g hg => hs g (List.mem_cons_of_mem _ hg)
    obtain ⟨conditions, included, hi, hc⟩ := lowerField_cases hg
    cases included with
    | nil =>
      obtain rfl := hc
      exact .excluded hi ih
    | cons first rest =>
      obtain ⟨definition, arguments, below, fragments, hd, ha, hbelow, rfl⟩ := hc
      refine .field hi hd ha ?_ ih
      -- a field without selections has nothing below it, as if an empty list were lowered
      rcases hbelow with ⟨he, rfl, rfl⟩ | hbelow
      · rw [he]
        exact lowersPlace_nil _ s
      · refine hb _ _ _ _ (List.cons_ne_nil _ _) (fun f hf => ?_) hbelow
        exact hs g List.mem_cons_self f (included_subset hi f hf)

/-- Fragments that are lowered one by one, given a lowering of what is in them. -/
theorem lowersFragments_of_results {lowerFields : FieldsLowering}
    {lowerFragments : FragmentsLowering} {around : Enclosing} {s : Selected}
    {fs : List SelectedFragment} {results : List (List Interface)}
    (hf : ∀ f ∈ fs, ∀ type e, enter registry s type f = .ok e →
      (∀ type keys fields, lowerFields type keys e.selected = .ok fields →
        LowersFields pass registry type keys e.selected e.selected.groups fields) ∧
      (∀ around is, lowerFragments around e.selected = .ok is →
        LowersFragments pass registry around e.selected e.selected.fragments is))
    (h : List.Forall₂ (fun f r =>
      lowerFragment pass registry lowerFields lowerFragments around s f = .ok r) fs results) :
    LowersFragments pass registry around s fs results.flatten := by
  induction h with
  | nil => exact .nil
  | @cons f r fs rs hr _ ih =>
    have ih := ih fun f h => hf f (List.mem_cons_of_mem _ h)
    rw [List.flatten_cons]
    rcases lowerFragment_cases hr with
      ⟨hi, rfl⟩ | ⟨conditions, e, own, nested, hi, he, ht, ho, hn, rfl⟩
    · exact .excluded hi ih
    · obtain ⟨hlf, hlg⟩ := hf f List.mem_cons_self _ e he
      exact .entered hi he ht (hlf _ _ _ ho) (hlg _ _ hn) ih

/-- What lowering gives under a bound that suffices is derivable. -/
theorem lowers_of_depth_le (pass : Pass) (n : Nat) : ∀ s : Selected, s.depth registry ≤ n →
    (∀ type keys fields, lowerFields pass registry n type keys s = .ok fields →
      LowersFields pass registry type keys s s.groups fields) ∧
    (∀ around is, lowerFragments pass registry n around s = .ok is →
      LowersFragments pass registry around s s.fragments is) := by
  induction n with
  | zero =>
    intro s hs
    -- selections without depth are none
    have hn : s.selections = [] := eq_nil_of_depth (Nat.le_zero.1 hs)
    have hg : s.groups = [] := by simp [Selected.groups, Selected.fields, hn]
    have hf : s.fragments = [] := by simp [Selected.fragments, hn]
    rw [hg, hf]
    constructor
    · intro type keys fields h
      obtain rfl := Except.ok.inj h
      exact .nil
    · intro around is h
      obtain rfl := Except.ok.inj h
      exact .nil
  | succ n ih =>
    intro s hs
    constructor
    · intro type keys fields h
      obtain ⟨results, hr, h⟩ := Except.bind_eq_ok.1 h
      obtain rfl := Except.ok.inj h
      refine lowersFields_of_results (fun place fs fields fragments hne hin hb => ?_)
        (fun g hg f hf => ((mem_members_iff hg).1 hf).1) (Except.mapM_eq_ok.1 hr)
      -- what is below a field is nested less deep, so the smaller bound suffices
      obtain ⟨f, hf⟩ := List.exists_mem_of_ne_nil _ hne
      have hlt := depth_below_lt registry hin
        (List.ne_nil_of_mem (Selected.mem_fields.1 (hin f hf)))
      obtain ⟨hlf, hlg⟩ := ih _ (Nat.le_of_lt_succ (Nat.lt_of_lt_of_le hlt hs))
      exact lowersPlace_of_lowerPlaceWith hlf hlg hb
    · intro around is h
      obtain ⟨results, hr, h⟩ := Except.bind_eq_ok.1 h
      obtain rfl := Except.ok.inj h
      refine lowersFragments_of_results (fun f hf type e he => ?_) (Except.mapM_eq_ok.1 hr)
      exact ih _ (Nat.le_of_lt_succ (Nat.lt_of_lt_of_le (depth_enter_lt hf he) hs))

/-- **What lowering gives is derivable.** -/
theorem lowersPlace_of_ok {place : Place} {s : Selected} {fields : List Field}
    {fragments : List Fragment} (h : lowerPlace pass registry place s = .ok (fields, fragments)) :
    LowersPlace pass registry place s fields fragments := by
  obtain ⟨hf, hg⟩ := lowers_of_depth_le pass _ s (Nat.le_refl (s.depth registry))
  exact lowersPlace_of_lowerPlaceWith hf hg h

end SelectionModel
