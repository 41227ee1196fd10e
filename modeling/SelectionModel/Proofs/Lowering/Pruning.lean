import SelectionModel.Proofs.Lowering.Depth
import SelectionModel.Proofs.Lowering.Inclusion

/-!
# Pruned selections

Pruning takes out of selections, and out of the definitions of a registry, what its
directives never let through, at every depth.

* `neverIncluded_iff`: directives are judged alike in all files.
* `fields_prune`, `fragments_prune`: what is left among selections.
* `includedFields_prune`: the included fields of a group, before or after pruning.
* `enter_prune`: a fragment is entered before or after pruning.
* `depth_prune_le`: pruning never deepens selections.
-/

namespace SelectionModel

/-- The directives of a selection. -/
def Selection.directives : Selection → List Directive
  | .field head _ => head.directives
  | .spread _ _ directives => directives
  | .inlineFragment _ _ directives _ => directives

/-- Directives never let their selection through. -/
def neverIncluded (directives : List Directive) : Bool :=
  match inclusion none directives with
  | .ok .never => true
  | _ => false

mutual

/-- The selection without what is never included below it. -/
def Selection.prune : Selection → Selection
  | .field head selections => .field head (pruneSelections selections)
  | .spread position name directives => .spread position name directives
  | .inlineFragment position condition directives selections =>
    .inlineFragment position condition directives (pruneSelections selections)

/-- The selections without what is never included, at any depth. -/
def pruneSelections : List Selection → List Selection
  | [] => []
  | x :: xs =>
    if neverIncluded x.directives then pruneSelections xs else x.prune :: pruneSelections xs

end

def Selected.prune (s : Selected) : Selected :=
  { s with selections := pruneSelections s.selections }

def RegisteredFragment.prune (f : RegisteredFragment) : RegisteredFragment :=
  { f with definition := { f.definition with selections := pruneSelections f.selections } }

theorem RegisteredFragment.names_prune (fs : List RegisteredFragment) :
    (fs.map prune).map name = fs.map name := by
  rw [List.map_map]
  rfl

/-- The registry with pruned definitions. -/
def Registry.prune (r : Registry) : Registry where
  fragments := r.fragments.map RegisteredFragment.prune
  nodup := by
    rw [RegisteredFragment.names_prune]
    exact r.nodup

/-! ## Directives -/

theorem inclusionFrom_eq_never_iff (file file' : Option String)
    (conditions conditions' : List Condition) (directives : List Directive) :
    inclusionFrom file conditions directives = .ok .never ↔
      inclusionFrom file' conditions' directives = .ok .never := by
  induction directives generalizing conditions conditions' with
  | nil => simp [inclusionFrom]
  | cons d ds ih =>
    rw [inclusionFrom, inclusionFrom]
    split
    · split
      -- a literal decides, or leaves it to the rest like a variable
      · split
        · rfl
        · exact ih _ _
      · exact ih _ _
      · simp
    · exact ih _ _

/-- **Directives are judged alike in all files.** -/
theorem neverIncluded_iff {file : Option String} {directives : List Directive} :
    neverIncluded directives = true ↔ inclusion file directives = .ok .never := by
  rw [inclusion, inclusionFrom_eq_never_iff file none [] [], ← inclusion, neverIncluded]
  split
  · next h => simp [h]
  · next h => exact ⟨fun hf => absurd hf Bool.false_ne_true, fun hn => absurd hn h⟩

/-! ## Fields and fragments -/

def SelectedField.prune (f : SelectedField) : SelectedField :=
  { f with selections := pruneSelections f.selections }

def FragmentTarget.prune : FragmentTarget → FragmentTarget
  | .inPlace condition selections => .inPlace condition (pruneSelections selections)
  | .definition name => .definition name

def SelectedFragment.prune (f : SelectedFragment) : SelectedFragment :=
  { f with target := f.target.prune }

def EnteredFragment.prune (e : EnteredFragment) : EnteredFragment :=
  { e with selected := e.selected.prune }

/-- A field is left when pruning. -/
def SelectedField.isLeft (f : SelectedField) : Bool := !neverIncluded f.head.directives

/-- A fragment is left when pruning. -/
def SelectedFragment.isLeft (f : SelectedFragment) : Bool := !neverIncluded f.directives

theorem pruneSelections_append (xs ys : List Selection) :
    pruneSelections (xs ++ ys) = pruneSelections xs ++ pruneSelections ys := by
  induction xs with
  | nil => rw [pruneSelections, List.nil_append, List.nil_append]
  | cons x xs ih =>
    rw [List.cons_append, pruneSelections, pruneSelections, ih]
    split
    · rfl
    · rw [List.cons_append]

/-- Fields are pruned one by one, with all that is selected below them. -/
theorem pruneSelections_flatMap (fs : List SelectedField) :
    pruneSelections (fs.flatMap SelectedField.selections) =
      (fs.map SelectedField.prune).flatMap SelectedField.selections := by
  induction fs with
  | nil => rw [List.flatMap_nil, pruneSelections, List.map_nil, List.flatMap_nil]
  | cons f fs ih =>
    rw [List.flatMap_cons, pruneSelections_append, ih, List.map_cons, List.flatMap_cons]
    rfl

/-- What is picked from pruned selections is picked from those that are left. -/
theorem filterMap_prune {α : Type} {pick : Selection → Option α} {prune : α → α}
    {isLeft : α → Bool} (hp : ∀ x : Selection, pick x.prune = (pick x).map prune)
    (hl : ∀ x a, pick x = some a → isLeft a = !neverIncluded x.directives) (xs : List Selection) :
    (pruneSelections xs).filterMap pick = ((xs.filterMap pick).filter isLeft).map prune := by
  induction xs with
  | nil =>
    rw [pruneSelections]
    rfl
  | cons x xs ih =>
    rw [pruneSelections]
    cases hx : pick x with
    | none =>
      have hprune : pick x.prune = none := by rw [hp, hx, Option.map_none]
      rw [List.filterMap_cons_none hx, ← ih]
      split
      · rfl
      · rw [List.filterMap_cons_none hprune]
    | some a =>
      have ha := hl x a hx
      have hprune : pick x.prune = some (prune a) := by rw [hp, hx, Option.map_some]
      rw [List.filterMap_cons_some hx]
      by_cases h : neverIncluded x.directives = true
      · rw [if_pos h, ih, List.filter_cons_of_neg (by simp [ha, h])]
      · rw [if_neg h, List.filterMap_cons_some hprune, ih,
          List.filter_cons_of_pos (by simp [ha, h]), List.map_cons]

namespace Selected

variable (s : Selected)

/-- **The fields that are left.** -/
theorem fields_prune :
    s.prune.fields = (s.fields.filter SelectedField.isLeft).map SelectedField.prune := by
  refine filterMap_prune (fun x => ?_) (fun x f hx => ?_) s.selections
  · cases x <;> rfl
  · cases x <;> cases hx
    rfl

/-- **The fragments that are left.** -/
theorem fragments_prune :
    s.prune.fragments =
      (s.fragments.filter SelectedFragment.isLeft).map SelectedFragment.prune := by
  refine filterMap_prune (fun x => ?_) (fun x f hx => ?_) s.selections
  · cases x <;> rfl
  · cases x <;> cases hx <;> rfl

end Selected

/-- **The included fields of a group**, before or after pruning. -/
theorem includedFields_prune (file : Option String) (group : List SelectedField) :
    includedFields file ((group.filter SelectedField.isLeft).map SelectedField.prune) =
      (includedFields file group).map fun r => (r.1, r.2.map SelectedField.prune) := by
  induction group with
  | nil => rfl
  | cons g group ih =>
    rw [includedFields]
    by_cases h : neverIncluded g.head.directives = true
    · rw [List.filter_cons_of_neg (by simp [SelectedField.isLeft, h]), ih, neverIncluded_iff.1 h]
    · rw [List.filter_cons_of_pos (by simp [SelectedField.isLeft, h]), List.map_cons,
        includedFields, ih]
      have hn : inclusion file g.head.directives ≠ .ok .never :=
        fun he => h (neverIncluded_iff.2 he)
      simp only [SelectedField.prune]
      split
      · rfl
      · next he => exact absurd he hn
      · cases includedFields file group <;> rfl

/-! ## Entered fragments -/

theorem Registry.get?_prune (r : Registry) (name : String) :
    r.prune.get? name = (r.get? name).map RegisteredFragment.prune := by
  rw [get?, get?, Registry.prune, List.find?_map]
  rfl

/-- **A fragment is entered before or after pruning.** -/
theorem enter_prune (r : Registry) (s : Selected) (type : String) (f : SelectedFragment) :
    enter r.prune s.prune type f.prune = (enter r s type f).map EnteredFragment.prune := by
  rw [enter, enter]
  cases ht : f.target with
  | inPlace condition selections =>
    simp only [SelectedFragment.prune, FragmentTarget.prune, ht]
    rfl
  | definition name =>
    simp only [SelectedFragment.prune, FragmentTarget.prune, ht, Registry.get?_prune]
    cases r.get? name with
    | none => rfl
    | some d =>
      simp only [Option.map_some]
      by_cases hn : name ∈ s.enclosing
      · have hn' : name ∈ s.prune.enclosing := hn
        rw [if_pos hn, if_pos hn']
        rfl
      · have hn' : name ∉ s.prune.enclosing := hn
        rw [if_neg hn, if_neg hn']
        rfl

/-! ## Depth -/

mutual

theorem Selection.depth_prune_le : ∀ x : Selection, x.prune.depth ≤ x.depth
  | .field _ selections => by
    rw [Selection.prune, Selection.depth, Selection.depth]
    exact Nat.succ_le_succ (selectionsDepth_prune_le selections)
  | .spread _ _ _ => Nat.le_of_eq (by rw [Selection.prune])
  | .inlineFragment _ _ _ selections => by
    rw [Selection.prune, Selection.depth, Selection.depth]
    exact Nat.succ_le_succ (selectionsDepth_prune_le selections)

theorem selectionsDepth_prune_le :
    ∀ xs : List Selection, selectionsDepth (pruneSelections xs) ≤ selectionsDepth xs
  | [] => Nat.le_of_eq (by rw [pruneSelections])
  | x :: xs => by
    have hx := x.depth_prune_le
    have hxs := selectionsDepth_prune_le xs
    rw [pruneSelections]
    split
    · rw [selectionsDepth]; omega
    · rw [selectionsDepth, selectionsDepth]; omega

end

theorem Registry.depthOutside_prune_le (r : Registry) (enclosing : List String) :
    r.prune.depthOutside enclosing ≤ r.depthOutside enclosing := by
  change depthsOutside (r.fragments.map RegisteredFragment.prune) enclosing ≤
    depthsOutside r.fragments enclosing
  induction r.fragments with
  | nil => exact Nat.le_refl _
  | cons f fs ih =>
    have hf : selectionsDepth f.prune.selections ≤ selectionsDepth f.selections :=
      selectionsDepth_prune_le f.selections
    rw [List.map_cons, depthsOutside_cons, depthsOutside_cons]
    refine Nat.add_le_add ?_ ih
    change (if f.name ∈ enclosing then 0 else selectionsDepth f.prune.selections) ≤ _
    split
    · exact Nat.le_refl _
    · exact hf

/-- **Pruning never deepens selections.** -/
theorem Selected.depth_prune_le (r : Registry) (s : Selected) :
    s.prune.depth r.prune ≤ s.depth r :=
  Nat.add_le_add (selectionsDepth_prune_le s.selections) (r.depthOutside_prune_le s.enclosing)

end SelectionModel
