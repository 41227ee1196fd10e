import SelectionModel.Proofs.Lowering.Conditions
import SelectionModel.Proofs.Lowering.Occurrences
import SelectionModel.Proofs.Sample

/-!
# Conditions of interfaces

An interface is merged from all fragments on its type condition that occur at a place, and
it has the conditions of all of them. The conditions of the fragments around them are not
among these: they are on the interfaces of their own type conditions.

* `Active`: whether a fragment is let through, by its own directives and by those around it.
* `interface_conditions`: **the conditions of an interface hold exactly when the
  directives of all its fragments let them through.**
-/

namespace SelectionModel

/-- The directives of a fragment let it through under values of the variables. -/
def OccurringFragment.Admitted (values : String → Bool) (x : OccurringFragment) : Prop :=
  ∀ d ∈ x.fragment.directives, d.admits values = true

/-- **A fragment is active**: its own directives and those of the fragments around it let
it through. -/
def Active (values : String → Bool) (around : List OccurringFragment) (x : OccurringFragment) :
    Prop :=
  ∀ y ∈ x :: around, y.Admitted values

variable {pass : Pass} {registry : Registry}

/-- The directives that an interface has its conditions from. -/
theorem InterfaceOf.exists_inclusion {around : Enclosing} {s : Selected} {o : Occurrence}
    {i : Interface} (h : InterfaceOf pass registry around s o i) :
    ∃ file, inclusion file o.fragment.fragment.directives = .ok (.under i.conditions) := by
  induction h with
  | here hl => exact ⟨_, hl.inclusion_eq⟩
  | inside _ _ ih => exact ih

/-- **The conditions of an interface hold when its fragment is let through.** -/
theorem InterfaceOf.holds_iff {around : Enclosing} {s : Selected} {o : Occurrence} {i : Interface}
    (h : InterfaceOf pass registry around s o i) {values : String → Bool} :
    (∀ c ∈ i.conditions, c.Holds values) ↔ o.fragment.Admitted values := by
  obtain ⟨file, hi⟩ := h.exists_inclusion
  exact holds_iff_admits hi

/-! ## Merged interfaces -/

/-- The conditions of a merged interface are those of the interfaces it is merged from. -/
theorem mem_conditions_mergeInterfaces {merge : List Field → List Field} {is : List Interface}
    {j : Interface} (hj : j ∈ mergeInterfaces merge is) {c : Condition} :
    c ∈ j.conditions ↔ ∃ i ∈ is, i.typeCondition = j.typeCondition ∧ c ∈ i.conditions :=
  mergeInterfaces_iff (p := fun i => c ∈ i.conditions) (fun _ _ => mem_extendConditions) hj

/-- **Conditions of interfaces.** Those of an interface hold exactly when the directives of
every fragment that is merged into it let that through. Such a fragment is active when
also the conditions of the interfaces hold that the fragments around it are merged into. -/
theorem interface_conditions {place : Place} {s : Selected} {fields : List Field}
    {fragments : List Fragment} (h : lowerPlace pass registry place s = .ok (fields, fragments))
    (values : String → Bool) :
    (∀ j ∈ interfacesIn fragments, (∀ c ∈ j.conditions, c.Holds values) ↔
      ∀ around x, Stands registry (s.typed place.type) around x →
        x.inside.type = j.typeCondition → x.Admitted values) ∧
    ∀ around x, Stands registry (s.typed place.type) around x →
      (∀ j ∈ interfacesIn fragments, (∃ y ∈ x :: around, y.inside.type = j.typeCondition) →
        ∀ c ∈ j.conditions, c.Holds values) →
      Active values around x := by
  obtain ⟨-, hl⟩ := lowersPlace_of_ok h
  rw [interfacesIn_assemble]
  constructor
  · intro j hj
    constructor
    · intro hc around x hx he
      obtain ⟨i, hi, hio⟩ := hl.exists_interface (o := ⟨around, x⟩) hx
      refine hio.holds_iff.1 fun c hci => hc c ?_
      exact (mem_conditions_mergeInterfaces hj).2 ⟨i, hi, hio.typeCondition.trans he, hci⟩
    · intro ha c hc
      obtain ⟨i, hi, he, hci⟩ := (mem_conditions_mergeInterfaces hj).1 hc
      obtain ⟨o, hio⟩ := hl.exists_occurrence hi
      exact hio.holds_iff.2 (ha _ _ hio.stands (hio.typeCondition.symm.trans he)) c hci
  · intro around x hx hc y hy
    -- the fragment, or one around it, and the interface that it is merged into
    obtain ⟨outer, ho⟩ := hx.exists_of_mem y hy
    obtain ⟨i, hi, hio⟩ := hl.exists_interface (o := ⟨outer, y⟩) ho
    obtain ⟨j, hj, he⟩ := exists_mergeInterfaces (mergeFields pass) hi
    refine hio.holds_iff.1 fun c hci => ?_
    refine hc j hj ⟨y, hy, hio.typeCondition.symm.trans he.symm⟩ c ?_
    exact (mem_conditions_mergeInterfaces hj).2 ⟨i, hi, he.symm, hci⟩

/-! ## A fragment under a condition

```
node { ... on N @include(if: $a) { ... on A { x } } }
```
-/

namespace Sample

/-- The fragment on `A` in that on `N`. -/
def innerFragment : OccurringFragment where
  fragment := ⟨⟨1, 1⟩, [], .inPlace (some "A") [select "x" []]⟩
  inside := ⟨"A", [select "x" []]⟩

/-- The fragment on `N`, which is included while `a` is true. -/
def outerFragment : OccurringFragment where
  fragment :=
    ⟨⟨1, 1⟩, [⟨⟨1, 1⟩, "include", [("if", .variable "a")]⟩],
      .inPlace (some "N") [on "A" [select "x" []]]⟩
  inside := ⟨"N", [on "A" [select "x" []]]⟩

/-- The selections on the field `node`. -/
def conditional : Selected :=
  ⟨none, [],
    [.inlineFragment ⟨1, 1⟩ (some "N") outerFragment.fragment.directives
      [on "A" [select "x" []]]]⟩

theorem stands_innerFragment :
    Stands Sample.registry (conditional.typed "N") [outerFragment] innerFragment :=
  .inside List.mem_cons_self (.here List.mem_cons_self)

/-- The interface on `N` is the only one that has a condition. -/
theorem exists_conditional :
    ∃ fields fragments,
      lowerPlace ⟨schema, true⟩ Sample.registry nodePlace conditional = .ok (fields, fragments) ∧
      (∀ j ∈ interfacesIn fragments, ∀ c ∈ j.conditions, c = ⟨"a", false⟩) ∧
      ∃ j ∈ interfacesIn fragments, j.typeCondition = "A" ∧ j.conditions = [] := by
  obtain ⟨⟨fields, fragments⟩, h, hp⟩ := Except.exists_of_any
    (x := lowerPlace ⟨schema, true⟩ Sample.registry nodePlace conditional)
    (p := fun r => (∀ j ∈ interfacesIn r.2, ∀ c ∈ j.conditions, c = ⟨"a", false⟩) ∧
      ∃ j ∈ interfacesIn r.2, j.typeCondition = "A" ∧ j.conditions = [])
    (by decide +kernel)
  exact ⟨fields, fragments, h, hp⟩

end Sample

/-- While `a` is true, the fragments of the sample are active. -/
theorem sample_active :
    ∃ fields fragments,
      lowerPlace ⟨Sample.schema, true⟩ Sample.registry Sample.nodePlace Sample.conditional =
        .ok (fields, fragments) ∧
      ∀ values : String → Bool, values "a" = true →
        Active values [Sample.outerFragment] Sample.innerFragment := by
  obtain ⟨fields, fragments, h, hc, -⟩ := Sample.exists_conditional
  refine ⟨fields, fragments, h, fun values ha => ?_⟩
  refine (interface_conditions h values).2 _ _ Sample.stands_innerFragment fun j hj _ c hcj => ?_
  rw [hc j hj c hcj, Condition.Holds, Condition.evaluate, ha]
  rfl

/-- **An interface whose conditions hold need not be selected**: the one on `A` has no
conditions, while the fragment that it is made of is in one that `a` excludes. -/
theorem sample_condition_missing :
    ∃ fields fragments, ∃ j ∈ interfacesIn fragments, ∃ values : String → Bool,
      lowerPlace ⟨Sample.schema, true⟩ Sample.registry Sample.nodePlace Sample.conditional =
        .ok (fields, fragments) ∧
      (∀ c ∈ j.conditions, c.Holds values) ∧
      Stands Sample.registry (Sample.conditional.typed Sample.nodePlace.type)
        [Sample.outerFragment] Sample.innerFragment ∧
      Sample.innerFragment.inside.type = j.typeCondition ∧
      ¬Active values [Sample.outerFragment] Sample.innerFragment := by
  obtain ⟨fields, fragments, h, -, j, hj, ht, hc⟩ := Sample.exists_conditional
  refine ⟨fields, fragments, j, hj, fun _ => false, h, ?_, Sample.stands_innerFragment, ht.symm,
    fun ha => ?_⟩
  · rw [hc]
    exact fun _ hc => absurd hc List.not_mem_nil
  · have hadmits := ha Sample.outerFragment (List.mem_cons_of_mem _ List.mem_cons_self) _
      List.mem_cons_self
    cases hadmits

end SelectionModel
