import SelectionModel.Proofs.Collection.Occurrences
import SelectionModel.Schema.PossibleTypes

/-!
# Collected response names

What the language says an object of a type answers to some selections: the fields
among them, and those in the fragments whose type conditions the object satisfies,
down through fragments in fragments. Conditions on variables count as satisfied;
literal ones rule selections out.

* `Entered`, `Collected`: the selections that count for an object, and the response
  names among them.
* `collected_iff`: **a name is collected when it stands in the selections or along
  an occurrence that applies to the object.**
-/

namespace SelectionModel

/-! ## Response names -/

namespace TypedSelections

/-- The fields of one response name among selections, unless they are ruled out. -/
def group (s : TypedSelections) (name : String) : List SelectedField :=
  (s.selections.filterMap Selection.field?).filter fun f =>
    decide (f.head.responseName = name) && !ruledOut f.head.directives

/-- A response name stands among selections. -/
def Selects (s : TypedSelections) (name : String) : Prop := s.group name ≠ []

/-- The selections below the fields of one response name, on the type of the first
of them: it speaks for all, as all must have the same type. -/
def below? (schema : Schema) (s : TypedSelections) (name : String) : Option TypedSelections :=
  match s.group name with
  | [] => none
  | first :: rest =>
    (schema.field? s.type first.head.name).map fun d =>
      ⟨d.type.innermostName, (first :: rest).flatMap SelectedField.selections⟩

end TypedSelections

/-! ## What an object collects -/

section Collect

variable (schema : Schema) (registry : Registry) (object : String)

/-- **Selections that count for an object**: these ones, and those of a fragment
among them whose type condition it satisfies, with what counts there. -/
inductive Entered : TypedSelections → TypedSelections → Prop where
  | here {s : TypedSelections} : Entered s s
  | inside {s t u : TypedSelections} : t ∈ s.inner registry →
    object ∈ schema.possibleTypes t.type → Entered t u → Entered s u

/-- **A response name that an object collects** from selections. -/
def Collected (s : TypedSelections) (name : String) : Prop :=
  ∃ u, Entered schema registry object s u ∧ u.Selects name

/-- Selections below a response name that an object collects. -/
def CollectedBelow (s : TypedSelections) (name : String) (t : TypedSelections) : Prop :=
  ∃ u, Entered schema registry object s u ∧ u.below? schema name = some t

/-- An object satisfies all type conditions along a path of fragments. -/
def Applies (path : List TypedSelections) : Prop :=
  ∀ t ∈ path, object ∈ schema.possibleTypes t.type

end Collect

/-- A response name stands in one of the fragments along a path. -/
def SelectsAlong (path : List TypedSelections) (name : String) : Prop :=
  ∃ t ∈ path, t.Selects name

variable {schema : Schema} {registry : Registry} {object : String}

theorem entered_iff {s u : TypedSelections} :
    Entered schema registry object s u ↔
      u = s ∨ ∃ t ∈ s.inner registry, object ∈ schema.possibleTypes t.type ∧
        Entered schema registry object t u := by
  constructor
  · intro h
    cases h with
    | here => exact .inl rfl
    | inside ht ho h => exact .inr ⟨_, ht, ho, h⟩
  · rintro (rfl | ⟨t, ht, ho, h⟩)
    · exact .here
    · exact .inside ht ho h

@[simp] theorem applies_cons {t : TypedSelections} {path : List TypedSelections} :
    Applies schema object (t :: path) ↔
      object ∈ schema.possibleTypes t.type ∧ Applies schema object path :=
  List.forall_mem_cons

@[simp] theorem applies_nil : Applies schema object [] := by
  simp [Applies]

@[simp] theorem selectsAlong_cons {t : TypedSelections} {path : List TypedSelections}
    {name : String} : SelectsAlong (t :: path) name ↔ t.Selects name ∨ SelectsAlong path name := by
  simp [SelectsAlong]

@[simp] theorem selectsAlong_nil {name : String} : ¬SelectsAlong [] name := by
  simp [SelectsAlong]

/-- What is entered stands along an occurrence that applies. -/
theorem Entered.occurs {s u : TypedSelections} (h : Entered schema registry object s u) :
    u = s ∨ ∃ path t, Occurs registry s path t ∧ Applies schema object path ∧ u ∈ path := by
  induction h with
  | here => exact .inl rfl
  | @inside s t u ht ho _ ih =>
    rcases ih with rfl | ⟨path, v, hv, ha, hu⟩
    · exact .inr ⟨[u], u, .here ht, applies_cons.2 ⟨ho, applies_nil⟩, List.mem_singleton_self u⟩
    · exact .inr ⟨t :: path, v, .inside ht hv, applies_cons.2 ⟨ho, ha⟩, List.mem_cons_of_mem _ hu⟩

/-- What is along an occurrence that applies is entered. -/
theorem Stands.entered {s u : TypedSelections} {around : List OccurringFragment}
    {x : OccurringFragment} (h : Stands registry s around x)
    (ha : Applies schema object (⟨around, x⟩ : Occurrence).insides)
    (hu : u ∈ (⟨around, x⟩ : Occurrence).insides) : Entered schema registry object s u := by
  induction h with
  | here hx =>
    obtain rfl := List.mem_singleton.1 hu
    exact .inside (List.mem_map_of_mem hx) (applies_cons.1 ha).1 .here
  | inside hx _ ih =>
    obtain ⟨ho, ha⟩ := applies_cons.1 ha
    rcases List.mem_cons.1 hu with rfl | hu
    · exact .inside (List.mem_map_of_mem hx) ho .here
    · exact .inside (List.mem_map_of_mem hx) ho (ih ha hu)

theorem Occurs.entered {s t u : TypedSelections} {path : List TypedSelections}
    (h : Occurs registry s path t) (ha : Applies schema object path) (hu : u ∈ path) :
    Entered schema registry object s u := by
  obtain ⟨o, ho, rfl, -⟩ := h
  exact ho.entered ha hu

/-- **A name is collected when it stands in the selections or along an occurrence
that applies.** -/
theorem collected_iff {s : TypedSelections} {name : String} :
    Collected schema registry object s name ↔
      s.Selects name ∨ ∃ path t, Occurs registry s path t ∧ Applies schema object path ∧
        SelectsAlong path name := by
  constructor
  · rintro ⟨u, hu, hn⟩
    rcases hu.occurs with rfl | ⟨path, t, ht, ha, hu⟩
    · exact .inl hn
    · exact .inr ⟨path, t, ht, ha, u, hu, hn⟩
  · rintro (hn | ⟨path, t, ht, ha, u, hu, hn⟩)
    · exact ⟨s, .here, hn⟩
    · exact ⟨u, ht.entered ha hu, hn⟩

end SelectionModel
