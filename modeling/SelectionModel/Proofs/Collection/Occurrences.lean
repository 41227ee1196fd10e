import SelectionModel.Proofs.Lowering.Inclusion

/-!
# Occurrences of fragments

A fragment stands in selections when it is one of them, or when it is in another fragment
that stands there. It occurs wherever it stands, so an occurrence is a fragment with the
fragments around it. The occurrences form a tree, with a walk in pre-order: each fragment
comes before those in it, and these before the next one.

* `TypedSelections.occurring`: the fragments right in some selections.
* `Stands`: a fragment that occurs in selections, with the fragments around it.
* `Occurs`: the same, seen by the selections along the way.
* `PreOrder`: the walk through fragments and those in them. It is unique (`PreOrder.unique`)
  and visits all that stand there, and nothing else (`PreOrder.mem_iff`).
-/

namespace SelectionModel

/-! ## Selections on a type -/

/-- Selections on a type. -/
structure TypedSelections where
  type : String
  selections : List Selection

/-- What a fragment on a type stands for, if it is defined. -/
def FragmentTarget.typed? (registry : Registry) (type : String) :
    FragmentTarget → Option TypedSelections
  | .inPlace condition selections => some ⟨condition.getD type, selections⟩
  | .definition name => (registry.get? name).map fun d => ⟨d.typeCondition, d.selections⟩

/-- A fragment that occurs in selections, and what it stands for. -/
structure OccurringFragment where
  fragment : SelectedFragment
  inside : TypedSelections

/-- The fragments that occur among some fragments on a type: a literal must not rule them
out. -/
def occurringAmong (registry : Registry) (type : String) (fs : List SelectedFragment) :
    List OccurringFragment :=
  (fs.filter fun f => !ruledOut f.directives).filterMap fun f =>
    (f.target.typed? registry type).map (OccurringFragment.mk f)

namespace TypedSelections

/-- The fragments right in some selections, unless a literal rules them out. -/
def occurring (registry : Registry) (s : TypedSelections) : List OccurringFragment :=
  occurringAmong registry s.type (s.selections.filterMap Selection.fragment?)

/-- What the fragments among selections stand for, unless they are ruled out. -/
def inner (registry : Registry) (s : TypedSelections) : List TypedSelections :=
  (s.occurring registry).map OccurringFragment.inside

theorem mem_occurring {registry : Registry} {s : TypedSelections} {x : OccurringFragment} :
    x ∈ s.occurring registry ↔ x.fragment ∈ s.selections.filterMap Selection.fragment? ∧
      ruledOut x.fragment.directives = false ∧
      x.fragment.target.typed? registry s.type = some x.inside := by
  rw [occurring, occurringAmong, List.mem_filterMap]
  simp only [List.mem_filter, Bool.not_eq_true', Option.map_eq_some_iff]
  constructor
  · rintro ⟨f, ⟨hf, hr⟩, t, ht, rfl⟩
    exact ⟨hf, hr, ht⟩
  · rintro ⟨hf, hr, ht⟩
    exact ⟨x.fragment, ⟨hf, hr⟩, x.inside, ht, rfl⟩

end TypedSelections

/-! ## Fragments with those around them -/

/-- **A fragment stands in selections**, in the fragments around it, the outermost first. -/
inductive Stands (registry : Registry) :
    TypedSelections → List OccurringFragment → OccurringFragment → Prop where
  | here {s : TypedSelections} {x : OccurringFragment} :
    x ∈ s.occurring registry → Stands registry s [] x
  | inside {s : TypedSelections} {x y : OccurringFragment} {around : List OccurringFragment} :
    x ∈ s.occurring registry → Stands registry x.inside around y →
    Stands registry s (x :: around) y

variable {registry : Registry}

/-- The fragments around a fragment stand in the selections as well. -/
theorem Stands.exists_of_mem {s : TypedSelections} {around : List OccurringFragment}
    {x : OccurringFragment} (h : Stands registry s around x) :
    ∀ y ∈ x :: around, ∃ outer, Stands registry s outer y := by
  induction h with
  | here hx =>
    intro y hy
    obtain rfl := List.mem_singleton.1 hy
    exact ⟨[], .here hx⟩
  | @inside s x z around hx hz ih =>
    have inner : ∀ {y : OccurringFragment}, y ∈ z :: around → ∃ outer, Stands registry s outer y :=
      fun hy => by
        obtain ⟨outer, ho⟩ := ih _ hy
        exact ⟨x :: outer, .inside hx ho⟩
    intro y hy
    rcases List.mem_cons.1 hy with rfl | hy
    · exact inner List.mem_cons_self
    rcases List.mem_cons.1 hy with rfl | hy
    · exact ⟨[], .here hx⟩
    · exact inner (List.mem_cons_of_mem _ hy)

/-- An occurrence of a fragment, with the fragments around it, the outermost first. -/
structure Occurrence where
  around : List OccurringFragment
  fragment : OccurringFragment

namespace Occurrence

/-- The fragments that lead to the occurrence, and its own. -/
def path (o : Occurrence) : List OccurringFragment := o.around ++ [o.fragment]

/-- The selections along the occurrence, from the outermost fragment to its own. -/
def insides (o : Occurrence) : List TypedSelections := o.path.map OccurringFragment.inside

/-- The type condition, which is that of the surroundings if the fragment names none. -/
def type (o : Occurrence) : String := o.fragment.inside.type

/-- The occurrence in one more fragment. -/
def within (x : OccurringFragment) (o : Occurrence) : Occurrence := ⟨x :: o.around, o.fragment⟩

@[simp] theorem path_within (x : OccurringFragment) (o : Occurrence) :
    (o.within x).path = x :: o.path := rfl

@[simp] theorem insides_within (x : OccurringFragment) (o : Occurrence) :
    (o.within x).insides = x.inside :: o.insides := rfl

@[simp] theorem path_here (x : OccurringFragment) : (⟨[], x⟩ : Occurrence).path = [x] := rfl

@[simp] theorem insides_here (x : OccurringFragment) :
    (⟨[], x⟩ : Occurrence).insides = [x.inside] := rfl

/-- The occurrence is that of one of some fragments, or stands in one of them. -/
def StandsAmong (registry : Registry) (xs : List OccurringFragment) (o : Occurrence) : Prop :=
  ∃ x ∈ xs, o = ⟨[], x⟩ ∨
    ∃ i : Occurrence, o = i.within x ∧ Stands registry x.inside i.around i.fragment

theorem standsAmong_cons {x : OccurringFragment} {xs : List OccurringFragment} {o : Occurrence} :
    o.StandsAmong registry (x :: xs) ↔
      (o = ⟨[], x⟩ ∨
        ∃ i : Occurrence, o = i.within x ∧ Stands registry x.inside i.around i.fragment) ∨
      o.StandsAmong registry xs := by
  simp only [StandsAmong, List.mem_cons, or_and_right, exists_or, exists_eq_left]

theorem stands_iff {s : TypedSelections} {o : Occurrence} :
    Stands registry s o.around o.fragment ↔ o.StandsAmong registry (s.occurring registry) := by
  constructor
  · obtain ⟨around, fragment⟩ := o
    intro h
    cases h with
    | here hx => exact ⟨_, hx, .inl rfl⟩
    | inside hx h => exact ⟨_, hx, .inr ⟨⟨_, _⟩, rfl, h⟩⟩
  · rintro ⟨x, hx, rfl | ⟨i, rfl, h⟩⟩
    · exact .here hx
    · exact .inside hx h

end Occurrence

/-- A fragment occurs in selections: at the end of a path of fragments, each of
which stands in the one before. -/
def Occurs (registry : Registry) (s : TypedSelections) (path : List TypedSelections)
    (t : TypedSelections) : Prop :=
  ∃ o : Occurrence, Stands registry s o.around o.fragment ∧ o.insides = path ∧ o.fragment.inside = t

namespace Occurs

variable {s t u : TypedSelections} {path : List TypedSelections}

theorem here (ht : t ∈ s.inner registry) : Occurs registry s [t] t := by
  obtain ⟨x, hx, rfl⟩ := List.mem_map.1 ht
  exact ⟨⟨[], x⟩, .here hx, rfl, rfl⟩

theorem inside (ht : t ∈ s.inner registry) (h : Occurs registry t path u) :
    Occurs registry s (t :: path) u := by
  obtain ⟨x, hx, rfl⟩ := List.mem_map.1 ht
  obtain ⟨o, ho, rfl, rfl⟩ := h
  exact ⟨o.within x, .inside hx ho, rfl, rfl⟩

end Occurs

/-! ## The walk -/

/-- **The walk in pre-order**: each fragment, then those in it, then the next ones. -/
inductive PreOrder (registry : Registry) : List OccurringFragment → List Occurrence → Prop where
  | nil : PreOrder registry [] []
  | cons {x : OccurringFragment} {xs : List OccurringFragment} {inner rest : List Occurrence} :
    PreOrder registry (x.inside.occurring registry) inner → PreOrder registry xs rest →
    PreOrder registry (x :: xs) (⟨[], x⟩ :: inner.map (Occurrence.within x) ++ rest)

namespace PreOrder

variable {xs : List OccurringFragment} {walk walk' : List Occurrence}

/-- **There is one walk at most.** -/
theorem unique (h : PreOrder registry xs walk) (h' : PreOrder registry xs walk') :
    walk = walk' := by
  induction h generalizing walk' with
  | nil =>
    cases h'
    rfl
  | cons _ _ ihi ihr =>
    cases h' with
    | cons hi' hr' => rw [ihi hi', ihr hr']

/-- The walk visits fragments and what stands in them. -/
theorem mem_iff_among (h : PreOrder registry xs walk) {o : Occurrence} :
    o ∈ walk ↔ o.StandsAmong registry xs := by
  induction h generalizing o with
  | nil => simp [Occurrence.StandsAmong]
  | @cons x xs inner rest _ _ ihi ihr =>
    simp only [Occurrence.standsAmong_cons, List.mem_append, List.mem_cons, List.mem_map, ← ihr,
      Occurrence.stands_iff, ← ihi]
    simp only [and_comm, eq_comm]

/-- **The walk visits what stands in the selections**, and nothing else. -/
theorem mem_iff {s : TypedSelections} (h : PreOrder registry (s.occurring registry) walk)
    {o : Occurrence} : o ∈ walk ↔ Stands registry s o.around o.fragment := by
  rw [h.mem_iff_among, Occurrence.stands_iff]

end PreOrder

end SelectionModel
