import Mathlib.Data.List.Find
import SelectionModel.Lowering.Definitions
import SelectionModel.Proofs.Lowering.Calls
import SelectionModel.Proofs.Sample
import SelectionModel.Proofs.UsedFragments.Search

/-!
# Builds are local

Whatever is looked up while a definition is built is named by a spread that is reached
from it. So the definition is built alike, up to errors, with any two registries that
agree on these names.

* `Registry.AgreesOn`: two registries agree on what is reached.
* `Registry.AgreesOn.calls`: they agree on what is lowered from there on.
* `lowerPlace_local`: selections.
* `builds_local`: **definitions**.
-/

namespace SelectionModel

/-- **Two registries agree on what is reached from some spreads on**: each such spread
names the same fragment in both, or none in either. -/
def Registry.AgreesOn (r r' : Registry) (xs : List PlacedSpread) : Prop :=
  ∀ x, Reaches r xs x → r.get? x.name = r'.get? x.name

/-- The spreads in selections. -/
def Selected.spreads (s : Selected) : List PlacedSpread := spreadsIn s.file s.selections

variable {r r' : Registry} {xs ys : List PlacedSpread}

namespace Registry.AgreesOn

theorem get?_eq (h : r.AgreesOn r' xs) {x : PlacedSpread} (hx : x ∈ xs) :
    r.get? x.name = r'.get? x.name :=
  h x (.here hx)

theorem mono (h : r.AgreesOn r' xs) (hs : ∀ y ∈ ys, y ∈ xs) : r.AgreesOn r' ys :=
  fun x hx => h x (hx.mono hs)

/-- The registries agree on what is reached inside of a fragment that is spread. -/
theorem inside (h : r.AgreesOn r' xs) {x : PlacedSpread} {f : RegisteredFragment} (hx : x ∈ xs)
    (hf : r.get? x.name = some f) : r.AgreesOn r' f.spreads :=
  fun y hy => h y (.inside hx hf hy)

/-- A walk in one registry is a walk in the other. -/
theorem depthFirst (h : r.AgreesOn r' xs) {around : List String} {walk : List PlacedSpread}
    (hw : DepthFirst r around xs walk) : DepthFirst r' around xs walk := by
  have later : ∀ {x : PlacedSpread} {xs : List PlacedSpread}, r.AgreesOn r' (x :: xs) →
      r.AgreesOn r' xs := fun h => h.mono fun _ => List.mem_cons_of_mem _
  induction hw with
  | nil => exact .nil
  | unregistered hn _ ih =>
    exact .unregistered (h.get?_eq List.mem_cons_self ▸ hn) (ih (later h))
  | around ha _ ih => exact .around ha (ih (later h))
  | entered ha hf _ _ ihi ihw =>
    exact .entered ha (h.get?_eq List.mem_cons_self ▸ hf) (ihi (h.inside List.mem_cons_self hf))
      (ihw (later h))

/-- The fragments on a walk are the same in both. -/
theorem resolve_eq (h : r.AgreesOn r' xs) {walk : List PlacedSpread}
    (hw : DepthFirst r [] xs walk) : r.resolve walk = r'.resolve walk := by
  have hget : ∀ x ∈ walk, r.get? x.name = r'.get? x.name := fun x hx => h x (hw.reaches x hx)
  have hlacks : walk.find? r.lacks = walk.find? r'.lacks :=
    List.find?_congr fun x hx => by rw [Registry.lacks, Registry.lacks, hget x hx]
  have hfound : (firstUses walk).filterMap r.get? = (firstUses walk).filterMap r'.get? :=
    List.filterMap_congr fun n hn => by
      obtain ⟨x, hx, rfl⟩ := mem_firstUses.1 hn
      exact hget x hx
  rw [Registry.resolve, Registry.resolve, hlacks, hfound]

/-- **The same fragments are used.** -/
theorem usedFragments_eq {file : Option String} {selections : List Selection}
    (h : r.AgreesOn r' (spreadsIn file selections)) :
    usedFragments r file selections = usedFragments r' file selections := by
  obtain ⟨walk, hw⟩ := DepthFirst.exists r [] (spreadsIn file selections)
  rw [usedFragments_eq_resolve hw, usedFragments_eq_resolve (h.depthFirst hw), h.resolve_eq hw]

end Registry.AgreesOn

/-! ## Selections -/

section Spreads

variable {s : Selected}

/-- The spreads below some fields are among those of the selections. -/
theorem spreads_below {fs : List SelectedField} (hf : ∀ f ∈ fs, f ∈ s.fields) :
    ∀ x ∈ (s.below (fs.flatMap SelectedField.selections)).spreads, x ∈ s.spreads := by
  intro x hx
  obtain ⟨y, hy, hx⟩ := mem_spreadsIn.1 hx
  obtain ⟨f, hfs, hy⟩ := List.mem_flatMap.1 hy
  refine mem_spreadsIn.2 ⟨_, Selected.mem_fields.1 (hf f hfs), ?_⟩
  rw [Selection.spreads]
  exact mem_spreadsIn.2 ⟨y, hy, hx⟩

/-- A fragment is entered alike. -/
theorem enter_congr (h : r.AgreesOn r' s.spreads) {f : SelectedFragment} (hf : f ∈ s.fragments)
    (type : String) :
    enter r s type f = enter r' s type f := by
  obtain ⟨x, hx, hxf⟩ := List.mem_filterMap.1 hf
  cases x with
  | field head selections => cases hxf
  | inlineFragment position condition directives selections =>
    obtain rfl := Option.some.inj hxf
    rfl
  | spread position name directives =>
    obtain rfl := Option.some.inj hxf
    have hmem : ⟨.executable ⟨s.file, position⟩, name⟩ ∈ s.spreads :=
      mem_spreadsIn.2 ⟨_, hx, List.mem_singleton_self _⟩
    have hget : r.get? name = r'.get? name := h.get?_eq hmem
    rw [enter, enter]
    simp only [hget]

/-- What is called on is agreed on as well. -/
theorem Registry.AgreesOn.calls (h : r.AgreesOn r' s.spreads) {t : Selected}
    (hc : Calls r s t) : r.AgreesOn r' t.spreads := by
  cases hc with
  | below _ => exact h.mono (spreads_below fun f hf => (mem_included hf).1)
  | inPlace hx _ => exact h.mono fun y hy => mem_spreadsIn.2 ⟨_, hx, by rwa [Selection.spreads]⟩
  | @definition position name _ d hx _ hd =>
    have hmem : ⟨.executable ⟨s.file, position⟩, name⟩ ∈ s.spreads :=
      mem_spreadsIn.2 ⟨_, hx, List.mem_singleton_self _⟩
    exact h.inside hmem hd

end Spreads

/-- Selections are lowered alike under bounds on their depth, in registries that agree. -/
theorem loweredAlike_of_agreesOn (r r' : Registry) :
    LoweredAlike r r' fun n m s => s.depth r ≤ n ∧ s.depth r' ≤ m ∧ r.AgreesOn r' s.spreads where
  entered hs hf type := enter_congr hs.2.2 hf type
  calls hs hc hr hr' := ⟨by omega, by omega, hs.2.2.calls hc⟩
  left hs := eq_nil_of_depth (Nat.le_zero.1 hs.1)
  right hs := eq_nil_of_depth (Nat.le_zero.1 hs.2.1)

theorem lowerPlace_local (pass : Pass) (place : Place) {s : Selected}
    (h : r.AgreesOn r' s.spreads) : lowerPlace pass r place s = lowerPlace pass r' place s :=
  (loweredAlike_of_agreesOn r r').lowerPlaceWith pass ⟨Nat.le_refl _, Nat.le_refl _, h⟩ place

/-! ## Definitions -/

/-- **Builds are local.** Two registries that agree on every spread that is reached from a
definition build it alike: they give the same model or fail with the same error. -/
theorem builds_local (schema : Schema) (options : BuildOptions) (r r' : Registry) :
    (∀ (d : Document) (o : OperationDefinition), r.AgreesOn r' (spreadsIn d.file o.selections) →
      Builder.buildOperation ⟨schema, r, options⟩ d o =
        Builder.buildOperation ⟨schema, r', options⟩ d o) ∧
    (∀ f : RegisteredFragment, r.AgreesOn r' f.spreads →
      Builder.buildNamedFragment ⟨schema, r, options⟩ f =
        Builder.buildNamedFragment ⟨schema, r', options⟩ f) := by
  constructor
  · intro d o h
    have hl : ∀ pass place, lowerPlace pass r place (Selected.ofFile d.file o.selections) =
        lowerPlace pass r' place (Selected.ofFile d.file o.selections) :=
      fun pass place => lowerPlace_local pass place h
    simp only [Builder.buildOperation, Builder.operationText, hl, h.usedFragments_eq]
  · intro f h
    have hl : ∀ pass place, lowerPlace pass r place (Selected.ofDefinition f) =
        lowerPlace pass r' place (Selected.ofDefinition f) :=
      fun pass place => lowerPlace_local pass place h
    simp only [Builder.buildNamedFragment, lowerSelectionSet, hl]

namespace Sample

/-- The registry of the sample with a fragment that its operation does not spread. -/
def largerRegistry : Registry := ⟨[nested, fragment], by decide +kernel⟩

/-- A fragment with the selections of the operation. -/
def spreader : RegisteredFragment where
  definition := ⟨⟨3, 1⟩, "H", "Query", operation.selections⟩
  file := none
  sourceText := "fragment H on Query { node { ...F ... on B { f { ... on Y { b } } } ... on N { id } } }"

/-- The registries agree on the fragment `F`, which spreads nothing. -/
theorem agreesOn_largerRegistry {xs : List PlacedSpread} (h : ∀ x ∈ xs, x.name = "F") :
    registry.AgreesOn largerRegistry xs := by
  have hF : registry.get? "F" = some fragment := rfl
  have hF' : largerRegistry.get? "F" = some fragment := rfl
  intro x hx
  cases hx with
  | here hx => rw [h x hx, hF, hF']
  | inside hy hf hx =>
    rw [h _ hy, hF] at hf
    obtain rfl := Option.some.inj hf
    cases hx with
    | here hx => cases hx
    | inside hy _ _ => cases hy

theorem spreads_operation : ∀ x ∈ spreadsIn none operation.selections, x.name = "F" := by
  intro x hx
  obtain rfl := List.mem_singleton.1 hx
  rfl

end Sample

theorem sample_builds_local :
    (∃ op, Sample.builder.buildOperation Sample.document Sample.operation = .ok op ∧
      Builder.buildOperation ⟨Sample.schema, Sample.largerRegistry, {}⟩ Sample.document
        Sample.operation = .ok op) ∧
    ∃ nf, Sample.builder.buildNamedFragment Sample.spreader = .ok nf ∧
      Builder.buildNamedFragment ⟨Sample.schema, Sample.largerRegistry, {}⟩ Sample.spreader =
        .ok nf := by
  have hagree := Sample.agreesOn_largerRegistry Sample.spreads_operation
  obtain ⟨hoperation, hfragment⟩ :=
    builds_local Sample.schema {} Sample.registry Sample.largerRegistry
  constructor
  · obtain ⟨op, h⟩ := Sample.exists_operation
    exact ⟨op, h, hoperation Sample.document Sample.operation hagree ▸ h⟩
  · obtain ⟨nf, h, -⟩ := Except.exists_of_any (p := fun _ => True)
      (x := Sample.builder.buildNamedFragment Sample.spreader) (by decide +kernel)
    exact ⟨nf, h, hfragment Sample.spreader hagree ▸ h⟩

end SelectionModel
