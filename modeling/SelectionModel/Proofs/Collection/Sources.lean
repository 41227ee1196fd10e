import Mathlib.Data.Set.Lattice
import SelectionModel.Proofs.Collection.Behind
import SelectionModel.Proofs.Lowering.Conditions

/-!
# The sources of a model

A model at some place of a tree is made from all selections that stand there, and a field
of it from those of its response name, its copies. What is below these copies are the
sources of the model below the field. A fragment of a model has more sources than the
model: those along the occurrences on its type conditions.

* `copiesIn`, `belowIn`, `drawnOn`: the steps from sources to sources.
* `ModelSources`, `FieldCopies`: **the sources of the models of a tree and the copies of its
  fields**, from the root down.
* `SaysAll`: the conditions of a field say that all of its copies are let through.
-/

namespace SelectionModel

/-! ## Sources -/

/-- The fields of one response name among selections, unless they are ruled out. -/
def copiesIn (sources : Set TypedSelections) (name : String) : Set SelectedField :=
  {n | ∃ s ∈ sources, n ∈ s.group name}

/-- The selections below a response name. -/
def belowIn (schema : Schema) (sources : Set TypedSelections) (name : String) :
    Set TypedSelections :=
  {t | ∃ s ∈ sources, s.below? schema name = some t}

/-- What fragments on type conditions are made from: the sources of their model, and the
selections along each occurrence on one of the type conditions. -/
def drawnOn (registry : Registry) (typeConditions : List String) (sources : Set TypedSelections) :
    Set TypedSelections :=
  {v | ∃ s ∈ sources, DrawsOn registry typeConditions s v}

variable {schema : Schema} {registry : Registry} {A B : Set TypedSelections} {name : String}

theorem copiesIn_union : copiesIn (A ∪ B) name = copiesIn A name ∪ copiesIn B name := by
  ext n
  simp only [copiesIn, Set.mem_union, Set.mem_ofPred_eq, or_and_right, exists_or]

theorem belowIn_union :
    belowIn schema (A ∪ B) name = belowIn schema A name ∪ belowIn schema B name := by
  ext t
  simp only [belowIn, Set.mem_union, Set.mem_ofPred_eq, or_and_right, exists_or]

theorem subset_drawnOn (typeConditions : List String) : A ⊆ drawnOn registry typeConditions A :=
  fun s hs => ⟨s, hs, .inl rfl⟩

theorem mem_drawnOn_of_occurs {typeConditions : List String} {s u v : TypedSelections}
    {path : List TypedSelections} (hs : s ∈ A) (hu : Occurs registry s path u)
    (ht : u.type ∈ typeConditions) (hv : v ∈ path) : v ∈ drawnOn registry typeConditions A :=
  ⟨s, hs, .inr ⟨path, u, hu, ht, hv⟩⟩

theorem mem_drawnOn {typeConditions : List String} {v : TypedSelections} :
    v ∈ drawnOn registry typeConditions A ↔ v ∈ A ∨
      ∃ s ∈ A, ∃ path u, Occurs registry s path u ∧ u.type ∈ typeConditions ∧ v ∈ path := by
  constructor
  · rintro ⟨s, hs, rfl | h⟩
    · exact .inl hs
    · exact .inr ⟨s, hs, h⟩
  · rintro (hv | ⟨s, hs, path, u, hu, ht, hv⟩)
    · exact subset_drawnOn typeConditions hv
    · exact mem_drawnOn_of_occurs hs hu ht hv

/-! ## From the root down -/

section Tree

variable (schema : Schema) (registry : Registry) (root : Model) (start : TypedSelections)

/-- **The sources of the models of a tree**: below each field, what is below its copies. -/
inductive ModelSources : Model → Set TypedSelections → Prop where
  | root : ModelSources root {start}
  | own {m : Model} {sources : Set TypedSelections} {f : Field} :
    ModelSources m sources → f ∈ m.fields →
    ModelSources f.model (belowIn schema sources f.responseName)
  | fragment {m : Model} {sources : Set TypedSelections} {g : Fragment} {f : Field} :
    ModelSources m sources → g ∈ m.fragments → f ∈ g.fields →
    ModelSources f.model
      (belowIn schema (drawnOn registry g.typeConditions sources) f.responseName)

/-- **The copies of the fields of a tree**: all selections that are merged into a field,
in the model it stands in or in a fragment of it. -/
inductive FieldCopies : Field → Set SelectedField → Prop where
  | own {m : Model} {sources : Set TypedSelections} {f : Field} :
    ModelSources schema registry root start m sources → f ∈ m.fields →
    FieldCopies f (copiesIn sources f.responseName)
  | fragment {m : Model} {sources : Set TypedSelections} {g : Fragment} {f : Field} :
    ModelSources schema registry root start m sources → g ∈ m.fragments → f ∈ g.fields →
    FieldCopies f (copiesIn (drawnOn registry g.typeConditions sources) f.responseName)

end Tree

/-- **Every field of a tree has copies** in this sense, at any depth. -/
theorem ModelSources.exists_copies {root m : Model} {start : TypedSelections}
    {sources : Set TypedSelections} (h : ModelSources schema registry root start m sources)
    {f : Field} (hf : f ∈ subfieldsOf m.fields m.fragments) :
    f.Everywhere fun c => ∃ copies, FieldCopies schema registry root start c copies := by
  induction f using Field.induction generalizing m sources with
  | step f ih =>
    rw [Field.everywhere_iff]
    rcases mem_subfieldsOf.1 hf with hf | ⟨g, hg, hf⟩
    · exact ⟨⟨_, .own h hf⟩, fun c hc => ih c hc (h.own hf) hc⟩
    · exact ⟨⟨_, .fragment h hg hf⟩, fun c hc => ih c hc (h.fragment hg hf) hc⟩

/-! ## What conditions say of copies -/

/-- **The conditions of a field say that all of its copies are let through**, by all of
their directives, and there is a copy. Each condition on a variable stands there once. -/
structure Field.SaysAll (f : Field) (copies : Set SelectedField) : Prop where
  nodup : f.conditions.Nodup
  mem_iff : ∀ c, c ∈ f.conditions ↔ ∃ n ∈ copies, ∃ d ∈ n.head.directives, d.condition? = some c
  nonempty : copies.Nonempty

/-- The directives of a selection let it through under values of the variables. -/
def SelectedField.Admitted (values : String → Bool) (n : SelectedField) : Prop :=
  ∀ d ∈ n.head.directives, d.admits values = true

theorem not_excludes_of_mem_copiesIn {n : SelectedField} (h : n ∈ copiesIn A name) :
    ∀ d ∈ n.head.directives, d.excludes = false := by
  obtain ⟨s, -, hn⟩ := h
  have hr : ruledOut n.head.directives = false := by
    have := (List.mem_filter.1 hn).2
    simp only [Bool.and_eq_true, Bool.not_eq_true'] at this
    exact this.2
  intro d hd
  exact Bool.eq_false_iff.2 fun he => by
    rw [ruledOut, List.any_eq_false] at hr
    exact hr d hd he

/-- **All conditions of a field hold exactly when each of its copies is let through.** -/
theorem Field.SaysAll.holds_iff {f : Field} (h : f.SaysAll (copiesIn A name))
    (values : String → Bool) :
    (∀ c ∈ f.conditions, c.Holds values) ↔ ∀ n ∈ copiesIn A name, n.Admitted values := by
  constructor
  · intro hall n hn d hd
    rw [Directive.admits_iff (not_excludes_of_mem_copiesIn hn d hd)]
    intro c hc
    exact hall c ((h.mem_iff c).2 ⟨n, hn, d, hd, hc⟩)
  · intro hall c hc
    obtain ⟨n, hn, d, hd, hc⟩ := (h.mem_iff c).1 hc
    exact (Directive.admits_iff (not_excludes_of_mem_copiesIn hn d hd)).1 (hall n hn d hd) c hc

end SelectionModel
