import Mathlib.Tactic.Common
import SelectionModel.Lowering.Selected

/-!
# The depth of selections

What is selected below a field, and what a fragment among selections stands for,
is nested less deep than the selections. A definition that is entered leaves the
bound on the definitions outside, which pays for its own depth.

* `enter_eq_ok`: what entering a fragment gives, and when.
* `depth_below_lt`, `depth_enter_lt`: selections below fields and in a fragment are
  nested less deep.
-/

namespace SelectionModel

theorem selectionsDepth_le {ss : List Selection} {n : Nat} :
    selectionsDepth ss ≤ n ↔ ∀ x ∈ ss, x.depth ≤ n := by
  induction ss with
  | nil => simp [selectionsDepth]
  | cons s ss ih => rw [selectionsDepth, Nat.max_le, ih, List.forall_mem_cons]

theorem Selection.depth_le_of_mem {ss : List Selection} {x : Selection} (h : x ∈ ss) :
    x.depth ≤ selectionsDepth ss :=
  selectionsDepth_le.1 (Nat.le_refl _) x h

theorem Selection.depth_pos (x : Selection) : 0 < x.depth := by
  cases x <;> simp [Selection.depth]

theorem eq_nil_of_selectionsDepth {ss : List Selection} (h : selectionsDepth ss = 0) : ss = [] := by
  cases ss with
  | nil => rfl
  | cons x ss =>
    have := Selection.depth_le_of_mem (List.mem_cons_self (a := x) (l := ss))
    have := x.depth_pos
    omega

theorem eq_nil_of_depth {registry : Registry} {s : Selected} (h : s.depth registry = 0) :
    s.selections = [] :=
  eq_nil_of_selectionsDepth (Nat.eq_zero_of_add_eq_zero_right h)

theorem Selected.mem_fields {s : Selected} {f : SelectedField} :
    f ∈ s.fields ↔ .field f.head f.selections ∈ s.selections := by
  simp only [Selected.fields, List.mem_filterMap]
  constructor
  · rintro ⟨x, hx, h⟩
    cases x <;> simp only [Selection.field?, Option.some.injEq, reduceCtorEq] at h
    rwa [← h]
  · exact fun h => ⟨_, h, rfl⟩

/-- Selections below some fields are nested less deep. -/
theorem depth_below_lt (registry : Registry) {s : Selected} {fs : List SelectedField}
    (hf : ∀ f ∈ fs, f ∈ s.fields) (hs : s.selections ≠ []) :
    (s.below (fs.flatMap SelectedField.selections)).depth registry < s.depth registry := by
  obtain ⟨x, hx⟩ := List.exists_mem_of_ne_nil _ hs
  have hp : 0 < selectionsDepth s.selections :=
    Nat.lt_of_lt_of_le x.depth_pos (Selection.depth_le_of_mem hx)
  have hb : selectionsDepth (fs.flatMap SelectedField.selections) ≤
      selectionsDepth s.selections - 1 := by
    rw [selectionsDepth_le]
    intro y hy
    obtain ⟨f, hfs, hy⟩ := List.mem_flatMap.1 hy
    have h1 := Selection.depth_le_of_mem (Selected.mem_fields.1 (hf f hfs))
    have h2 := Selection.depth_le_of_mem hy
    rw [Selection.depth] at h1
    omega
  simp only [Selected.depth, Selected.below]
  omega

/-! ## Entered fragments -/

/-- What definitions outside of those being entered add up to. -/
def depthsOutside (definitions : List RegisteredFragment) (enclosing : List String) : Nat :=
  (definitions.filter fun f => f.name ∉ enclosing).foldr
    (fun f depth => selectionsDepth f.selections + depth) 0

theorem depthsOutside_cons (f : RegisteredFragment) (fs : List RegisteredFragment)
    (enclosing : List String) :
    depthsOutside (f :: fs) enclosing =
      (if f.name ∈ enclosing then 0 else selectionsDepth f.selections) +
        depthsOutside fs enclosing := by
  by_cases h : f.name ∈ enclosing <;> simp [depthsOutside, h]

theorem depthsOutside_enter_le (fs : List RegisteredFragment) (enclosing : List String)
    (name : String) : depthsOutside fs (name :: enclosing) ≤ depthsOutside fs enclosing := by
  induction fs with
  | nil => exact Nat.le_refl _
  | cons f fs ih =>
    rw [depthsOutside_cons, depthsOutside_cons]
    -- by whether the definition is inside before, and by whether it is the one entered
    by_cases h : f.name ∈ enclosing
    · simp only [h, List.mem_cons, or_true, if_true]; omega
    · by_cases hn : f.name = name
      · simp only [hn, List.mem_cons, true_or, if_true]; omega
      · simp only [h, hn, List.mem_cons, or_self, if_false]; omega

/-- **Entering a definition pays for its depth.** -/
theorem depthsOutside_enter {fs : List RegisteredFragment} {enclosing : List String}
    {d : RegisteredFragment} (hd : d ∈ fs) (hn : d.name ∉ enclosing) :
    selectionsDepth d.selections + depthsOutside fs (d.name :: enclosing) ≤
      depthsOutside fs enclosing := by
  induction fs with
  | nil => simp at hd
  | cons f fs ih =>
    rw [depthsOutside_cons, depthsOutside_cons]
    rcases List.mem_cons.1 hd with rfl | hd
    · have := depthsOutside_enter_le fs enclosing d.name
      simp only [hn, List.mem_cons, true_or, if_true, if_false]
      omega
    · have := ih hd
      by_cases h : f.name ∈ enclosing
      · simp only [h, List.mem_cons, or_true, if_true]; omega
      · by_cases hf : f.name = d.name
        · simp only [hf, List.mem_cons, true_or, if_true]; omega
        · simp only [h, hf, List.mem_cons, or_self, if_false]; omega

/-- **What entering a fragment gives**: the selections written in place, or those of a
definition that is not being entered already. -/
theorem enter_eq_ok {registry : Registry} {s : Selected} {type : String} {f : SelectedFragment}
    {e : EnteredFragment} :
    enter registry s type f = .ok e ↔
      (∃ condition selections, f.target = .inPlace condition selections ∧
        e = ⟨condition.getD type, s.location f.position, none, s.below selections⟩) ∨
      (∃ name d, f.target = .definition name ∧ registry.get? name = some d ∧ name ∉ s.enclosing ∧
        e = ⟨d.typeCondition, d.location, some d.name,
          ⟨d.file, d.name :: s.enclosing, d.selections⟩⟩) := by
  rw [enter]
  cases f.target with
  | inPlace condition selections => simp [eq_comm]
  | definition name =>
    cases hd : registry.get? name with
    | none => simp [hd]
    | some d => by_cases hn : name ∈ s.enclosing <;> simp [hd, hn, eq_comm]

/-- The same, by the selections that the fragment is among. -/
theorem enter_cases {registry : Registry} {s : Selected} {type : String} {f : SelectedFragment}
    {e : EnteredFragment} (hf : f ∈ s.fragments) (h : enter registry s type f = .ok e) :
    (∃ condition selections,
      .inlineFragment f.position condition f.directives selections ∈ s.selections ∧
        e = ⟨condition.getD type, s.location f.position, none, s.below selections⟩) ∨
    (∃ name d, .spread f.position name f.directives ∈ s.selections ∧
      registry.get? name = some d ∧ name ∉ s.enclosing ∧
        e = ⟨d.typeCondition, d.location, some d.name,
          ⟨d.file, d.name :: s.enclosing, d.selections⟩⟩) := by
  obtain ⟨x, hx, hxf⟩ := List.mem_filterMap.1 hf
  cases x with
  | field head selections => cases hxf
  | inlineFragment position condition directives selections =>
    obtain rfl := Option.some.inj hxf
    exact .inl ⟨condition, selections, hx, (Except.ok.inj h).symm⟩
  | spread position name directives =>
    obtain rfl := Option.some.inj hxf
    obtain ⟨_, _, ht, -⟩ | ⟨_, d, ht, hd, hn, he⟩ := enter_eq_ok.1 h
    · cases ht
    · obtain rfl := FragmentTarget.definition.inj ht
      exact .inr ⟨name, d, hx, hd, hn, he⟩

/-- What a fragment among selections stands for is nested less deep. -/
theorem depth_enter_lt {registry : Registry} {s : Selected} {type : String} {f : SelectedFragment}
    {e : EnteredFragment} (hf : f ∈ s.fragments) (h : enter registry s type f = .ok e) :
    e.selected.depth registry < s.depth registry := by
  rcases enter_cases hf h with ⟨condition, selections, hx, rfl⟩ | ⟨name, d, hx, hd, hn, rfl⟩
  · have hle := Selection.depth_le_of_mem hx
    rw [Selection.depth] at hle
    simp only [Selected.depth, Selected.below]
    omega
  · have hle := Selection.depth_le_of_mem hx
    rw [Selection.depth] at hle
    rw [← Registry.name_of_get? hd] at hn
    -- the definition is no longer outside, which pays for its own depth
    have := depthsOutside_enter (List.mem_of_find?_eq_some hd) hn
    simp only [Selected.depth, Registry.depthOutside]
    rw [depthsOutside, depthsOutside] at this
    omega

end SelectionModel
