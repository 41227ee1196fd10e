import Mathlib.Logic.Relation
import SelectionModel.Proofs.Lowering.Built
import SelectionModel.Proofs.Lowering.Calls
import SelectionModel.Proofs.Lowering.Failures
import SelectionModel.Proofs.Merging.Depth
import SelectionModel.Proofs.Sample
import SelectionModel.Proofs.UsedFragments.Search

/-!
# Lowering ends where fragments lead to no cycle

Nothing but a definition that is spread can be larger than what spreads it. While lowering
is inside of some definitions, each of these leads to whatever is spread there. So where no
fragment leads to itself, none is entered inside of itself, and there are only so many of
them to be inside of.

* `Registry.Acyclic`: no fragment leads to itself along spreads that are not ruled out.
* `Selected.Traced`: the definitions around selections lead to what is spread in them.
* `Calls.traced`, `Calls.depth_lt`: **what one call keeps and what it takes down.**
* `LoweringEnds`: what it means that lowering ends.
* `lowering_ends`: **lowering ends**, and no build fails for a cycle.
-/

namespace SelectionModel

/-! ## Fragments that lead to each other -/

/-- **Selections include a spread**, at any depth, and no literal rules it out, nor what it
stands in. -/
inductive IncludesSpread : List Selection → String → Prop where
  | here {ss : List Selection} {position : Position} {name : String}
      {directives : List Directive} :
    .spread position name directives ∈ ss → ruledOut directives = false → IncludesSpread ss name
  | field {ss selections : List Selection} {head : FieldHead} {name : String} :
    .field head selections ∈ ss → ruledOut head.directives = false →
    IncludesSpread selections name → IncludesSpread ss name
  | fragment {ss selections : List Selection} {position : Position} {condition : Option String}
      {directives : List Directive} {name : String} :
    .inlineFragment position condition directives selections ∈ ss → ruledOut directives = false →
    IncludesSpread selections name → IncludesSpread ss name

namespace Registry

/-- A registered fragment leads to another one if it includes a spread of it. -/
def LeadsTo (r : Registry) (f g : String) : Prop :=
  ∃ d, r.get? f = some d ∧ IncludesSpread d.selections g ∧ (r.get? g).isSome

/-- **No fragment leads to itself**, be it through others. -/
def Acyclic (r : Registry) : Prop := ∀ f, ¬Relation.TransGen r.LeadsTo f f

/-- A fragment leads to all that is spread in some selections. -/
def LeadsInto (r : Registry) (f : String) (s : Selected) : Prop :=
  ∀ g, IncludesSpread s.selections g → (r.get? g).isSome → Relation.TransGen r.LeadsTo f g

end Registry

/-- **The definitions around selections lead to what is spread in them**, and none stands
there twice. -/
structure Selected.Traced (registry : Registry) (s : Selected) : Prop where
  nodup : s.enclosing.Nodup
  leads : ∀ f ∈ s.enclosing, registry.LeadsInto f s

variable {registry : Registry} {s t : Selected} {name : String}

theorem traced_ofFile (registry : Registry) (file : Option String) (selections : List Selection) :
    (Selected.ofFile file selections).Traced registry where
  nodup := .nil
  leads _ hf := absurd hf List.not_mem_nil

/-- A registered fragment leads to what is spread in it. -/
theorem leadsInto_ofDefinition {f : RegisteredFragment} (hf : registry.get? f.name = some f) :
    registry.LeadsInto f.name (Selected.ofDefinition f) :=
  fun _ hg hr => .single ⟨f, hf, hg, hr⟩

/-- **What leads into selections is not spread in them.** -/
theorem Registry.LeadsInto.ne {f : String} (hf : registry.LeadsInto f s) (h : registry.Acyclic)
    (hs : IncludesSpread s.selections name) {d : RegisteredFragment}
    (hd : registry.get? name = some d) : f ≠ name := by
  rintro rfl
  have hr : (registry.get? f).isSome := by rw [hd]; rfl
  exact h f (hf f hs hr)

/-- **No definition is spread inside of itself.** -/
theorem Selected.Traced.not_mem (ht : s.Traced registry) (h : registry.Acyclic)
    (hs : IncludesSpread s.selections name) {d : RegisteredFragment}
    (hd : registry.get? name = some d) : name ∉ s.enclosing :=
  fun hm => (ht.leads name hm).ne h hs hd rfl

/-! ## One call -/

/-- What is below included fields includes what they do. -/
theorem includesSpread_below {g : String}
    (h : IncludesSpread ((s.included name).flatMap SelectedField.selections) g) :
    IncludesSpread s.selections g := by
  have hfield : ∃ f ∈ s.included name, IncludesSpread f.selections g := by
    cases h with
    | here hx hr =>
      obtain ⟨f, hf, hx⟩ := List.mem_flatMap.1 hx
      exact ⟨f, hf, .here hx hr⟩
    | field hx hr h =>
      obtain ⟨f, hf, hx⟩ := List.mem_flatMap.1 hx
      exact ⟨f, hf, .field hx hr h⟩
    | fragment hx hr h =>
      obtain ⟨f, hf, hx⟩ := List.mem_flatMap.1 hx
      exact ⟨f, hf, .fragment hx hr h⟩
  obtain ⟨f, hf, hg⟩ := hfield
  obtain ⟨hf, hr⟩ := mem_included hf
  exact .field (Selected.mem_fields.1 hf) hr hg

namespace Calls

/-- What leads into selections leads into what is called on. -/
theorem leadsInto {f : String} (hf : registry.LeadsInto f s) (hc : Calls registry s t) :
    registry.LeadsInto f t := by
  intro g hg hr
  cases hc with
  | below _ => exact hf g (includesSpread_below hg) hr
  | inPlace hx hn => exact hf g (.fragment hx hn hg) hr
  | @definition _ name _ d hx hn hd =>
    have hsome : (registry.get? name).isSome := by rw [hd]; rfl
    exact (hf name (.here hx hn) hsome).tail ⟨d, hd, hg, hr⟩

/-- **A call keeps the trace**: a definition that is entered is none of those around it. -/
theorem traced (h : registry.Acyclic) (ht : s.Traced registry) (hc : Calls registry s t) :
    t.Traced registry := by
  have hkept : ∀ f ∈ s.enclosing, registry.LeadsInto f t := fun f hf => leadsInto (ht.leads f hf) hc
  cases hc with
  | below _ => exact ⟨ht.nodup, hkept⟩
  | inPlace _ _ => exact ⟨ht.nodup, hkept⟩
  | @definition _ name _ d hx hr hd =>
    have hname : d.name = name := Registry.name_of_get? hd
    have hnew : d.name ∉ s.enclosing := hname ▸ ht.not_mem h (.here hx hr) hd
    refine ⟨List.nodup_cons.2 ⟨hnew, ht.nodup⟩, List.forall_mem_cons.2 ⟨?_, hkept⟩⟩
    exact fun g hg hrg => .single ⟨d, hname ▸ hd, hg, hrg⟩

/-- A call enters no definition that leads into the selections. -/
theorem not_mem_enclosing (h : registry.Acyclic) {f : String} (hf : registry.LeadsInto f s)
    (hn : f ∉ s.enclosing) (hc : Calls registry s t) : f ∉ t.enclosing := by
  cases hc with
  | below _ => exact hn
  | inPlace _ _ => exact hn
  | definition hx hr hd =>
    rw [Registry.name_of_get? hd, List.mem_cons, not_or]
    exact ⟨hf.ne h (.here hx hr) hd, hn⟩

/-- **A call goes less deep**: entering a definition leaves fewer of them outside. -/
theorem depth_lt (h : registry.Acyclic) (ht : s.Traced registry) (hc : Calls registry s t) :
    t.depth registry < s.depth registry := by
  cases hc with
  | below hn =>
    obtain ⟨x, hx⟩ := List.exists_mem_of_ne_nil _ hn
    obtain ⟨f, hf, -⟩ := List.mem_flatMap.1 hx
    refine depth_below_lt registry (fun f hf => (mem_included hf).1) ?_
    exact List.ne_nil_of_mem (Selected.mem_fields.1 (mem_included hf).1)
  | @inPlace position condition directives selections hx hr =>
    have hf : ⟨position, directives, .inPlace condition selections⟩ ∈ s.fragments :=
      List.mem_filterMap.2 ⟨_, hx, rfl⟩
    have he : enter registry s "" ⟨position, directives, .inPlace condition selections⟩ =
        .ok ⟨condition.getD "", s.location position, none, s.below selections⟩ := rfl
    exact depth_enter_lt hf he
  | @definition position name directives d hx hr hd =>
    have hf : ⟨position, directives, .definition name⟩ ∈ s.fragments :=
      List.mem_filterMap.2 ⟨_, hx, rfl⟩
    have hn : name ∉ s.enclosing := ht.not_mem h (.here hx hr) hd
    have he : enter registry s "" ⟨position, directives, .definition name⟩ =
        .ok ⟨d.typeCondition, d.location, some d.name,
          ⟨d.file, d.name :: s.enclosing, d.selections⟩⟩ :=
      enter_eq_ok.2 (.inr ⟨name, d, rfl, hd, hn, rfl⟩)
    exact depth_enter_lt hf he

end Calls

/-! ## All calls -/

/-- Definitions add no more than their number times the depth of the deepest. -/
theorem depthOutside_le {d : Nat}
    (hd : ∀ f ∈ registry.fragments, selectionsDepth f.selections ≤ d) (enclosing : List String) :
    registry.depthOutside enclosing ≤ registry.fragments.length * d := by
  have hall : ∀ fs : List RegisteredFragment, (∀ f ∈ fs, selectionsDepth f.selections ≤ d) →
      depthsOutside fs enclosing ≤ fs.length * d := by
    intro fs hfs
    induction fs with
    | nil => exact Nat.zero_le _
    | cons f fs ih =>
      obtain ⟨hf, hfs⟩ := List.forall_mem_cons.1 hfs
      have hrest := ih hfs
      rw [depthsOutside_cons, List.length_cons, Nat.succ_mul]
      split <;> omega
  exact hall _ hd

/-- **Lowering some selections ends.** No definition is entered inside of itself. A chain of
calls goes no deeper than the selections and all registered fragments together. Under
bounds that the calls do not reach, lowering does not depend on the bound. -/
structure LoweringEnds (registry : Registry) (s : Selected) : Prop where
  apart : ∀ chain, List.IsChain (Calls registry) (s :: chain) →
    ∀ t ∈ s :: chain, t.enclosing.Nodup
  bounded : ∀ d, (∀ f ∈ registry.fragments, selectionsDepth f.selections ≤ d) →
    EndWithin registry (selectionsDepth s.selections + registry.fragments.length * d + 1) s
  unbounded : ∀ pass place n, EndWithin registry n s →
    lowerPlaceWith pass (lowerFields pass registry n) (lowerFragments pass registry n) place s =
      lowerPlace pass registry place s

/-- No chain of calls enters a definition that leads into the selections it starts from. -/
theorem not_mem_enclosing_of_chain (h : registry.Acyclic) {f : String}
    (hf : registry.LeadsInto f s) (hn : f ∉ s.enclosing) {chain : List Selected}
    (hc : List.IsChain (Calls registry) (s :: chain)) : ∀ t ∈ s :: chain, f ∉ t.enclosing := by
  induction chain generalizing s with
  | nil =>
    intro t hm
    obtain rfl := List.mem_singleton.1 hm
    exact hn
  | cons u chain ih =>
    obtain ⟨hsu, hc⟩ := List.isChain_cons_cons.1 hc
    exact List.forall_mem_cons.2 ⟨hn, ih (hsu.leadsInto hf) (hsu.not_mem_enclosing h hf hn) hc⟩

theorem Selected.Traced.loweringEnds (ht : s.Traced registry) (h : registry.Acyclic) :
    LoweringEnds registry s where
  apart chain hc := by
    induction chain generalizing s with
    | nil =>
      intro t hm
      obtain rfl := List.mem_singleton.1 hm
      exact ht.nodup
    | cons u chain ih =>
      obtain ⟨hsu, hc⟩ := List.isChain_cons_cons.1 hc
      exact List.forall_mem_cons.2 ⟨ht.nodup, ih (hsu.traced h ht) hc⟩
  bounded d hd := by
    refine .of_lt (Selected.Traced registry) (Selected.depth registry)
      (fun s t hs hc => ⟨hc.traced h hs, hc.depth_lt h hs⟩) ht ?_
    have hle := depthOutside_le hd s.enclosing
    rw [Selected.depth]
    omega
  unbounded pass place _ hn := lowerPlaceWith_eq pass place hn

/-! ## Errors -/

/-- The error is not that a fragment is entered inside of itself. -/
def BuildError.NotCyclic (e : BuildError) : Prop := ∀ name location, e ≠ .cyclicFragment name location

/-- A computation does not fail for a cycle. -/
abbrev NoCycle {α : Type} (x : Except BuildError α) : Prop :=
  Except.FailsWith BuildError.NotCyclic x

theorem handedOn_traced (schema : Schema) (h : registry.Acyclic) :
    HandedOn schema registry fun _ s => s.Traced registry where
  below ht hi _ := by
    rw [← hi]
    exact ⟨ht.nodup, fun f hf g hg => ht.leads f hf g (includesSpread_below hg)⟩
  inside ht hf hr he := by
    rcases enter_cases hf he with ⟨condition, selections, hx, rfl⟩ | ⟨name, d, hx, hd, -, rfl⟩
    · exact (Calls.inPlace hx hr).traced h ht
    · exact (Calls.definition hx hr hd).traced h ht

/-- **Traced selections do not fail for a cycle**, for no fragment is entered inside of itself. -/
theorem noCycle_steps (schema : Schema) (h : registry.Acyclic) :
    StepsFailWith schema registry (fun _ s => s.Traced registry) BuildError.NotCyclic where
  directives _ _ e he := by
    obtain ⟨d, -, -, rfl⟩ := inclusion_eq_error he
    exact fun _ _ h => by cases h
  field _ _ _ := fun _ _ h => by cases h
  arguments _ _ _ e he := by
    obtain ⟨a, -, reason, -, rfl⟩ := coerceArguments_eq_error he
    exact fun _ _ h => by cases h
  entering ht hf hr e he := by
    obtain ⟨name, hx, ⟨-, rfl⟩ | ⟨⟨d, hd⟩, hm, -⟩⟩ := enter_eq_error hf he
    · exact fun _ _ h => by cases h
    · exact absurd hm (ht.not_mem h (.here hx hr) hd)
  typeCondition _ _ _ _ := fun _ _ h => by cases h

theorem noCycle_lowerPlace (pass : Pass) (h : registry.Acyclic) (ht : s.Traced registry)
    (place : Place) : NoCycle (lowerPlace pass registry place s) :=
  (noCycle_steps pass.schema h).failsWith_lowerPlace (handedOn_traced pass.schema h) ht

/-- The search for used fragments enters none inside of itself in any case. -/
theorem noCycle_usedFragments (registry : Registry) (file : Option String)
    (selections : List Selection) : NoCycle (usedFragments registry file selections) := by
  obtain ⟨walk, hw⟩ := DepthFirst.exists registry [] (spreadsIn file selections)
  rw [usedFragments_eq_resolve hw, Registry.resolve]
  split
  · exact .error fun _ _ h => by cases h
  · exact .ok _

/-! ## Builds -/

namespace Builder

variable {b : Builder}

theorem noCycle_buildOperation (h : b.registry.Acyclic) (d : Document) (o : OperationDefinition) :
    NoCycle (b.buildOperation d o) := by
  apply failsWith_buildOperation
  · exact fun _ _ _ h => by cases h
  · exact fun _ _ _ _ h => by cases h
  · exact fun _ _ _ _ h => by cases h
  · exact fun _ _ _ => noCycle_lowerPlace _ h (traced_ofFile _ _ _) _
  · exact fun _ _ => noCycle_usedFragments _ _ _

theorem noCycle_buildNamedFragment (h : b.registry.Acyclic) (f : RegisteredFragment) :
    NoCycle (b.buildNamedFragment f) := by
  apply failsWith_buildNamedFragment
  · exact fun _ _ _ h => by cases h
  · exact fun _ => noCycle_lowerPlace _ h (traced_ofFile _ _ _) _

theorem noCycle_buildDefinition (h : b.registry.Acyclic) (d : Document) (definition : Definition) :
    NoCycle (b.buildDefinition d definition) := by
  cases definition with
  | operation o => exact (noCycle_buildOperation h d o).map _
  | fragment f =>
    rw [buildDefinition]
    split
    · exact .error fun _ _ h => by cases h
    next registered _ => exact (noCycle_buildNamedFragment h registered).map _

end Builder

/-- **Builds end.** None fails for a cycle, and no recursion of a build is cut off: lowering
ends wherever it starts, merging under any bound that the fields do not exceed, and the
search for used fragments under any bound that these do not. Nor is a registered fragment
entered while it is built itself. -/
structure Builder.Ends (b : Builder) : Prop where
  operation : ∀ d o, NoCycle (b.buildOperation d o)
  namedFragment : ∀ f, NoCycle (b.buildNamedFragment f)
  document : ∀ d, NoCycle (b.buildDocument d)
  all : ∀ ds, NoCycle (b.buildAll ds)
  loweringFile : ∀ file selections, LoweringEnds b.registry (Selected.ofFile file selections)
  loweringDefinition : ∀ f, LoweringEnds b.registry (Selected.ofDefinition f)
  apart : ∀ f, b.registry.get? f.name = some f → ∀ chain,
    List.IsChain (Calls b.registry) (Selected.ofDefinition f :: chain) →
      ∀ t ∈ Selected.ofDefinition f :: chain, f.name ∉ t.enclosing
  merging : ∀ pass fields n, fieldsDepth fields ≤ n →
    mergeFieldsAt pass n fields = mergeFields pass fields
  search : ∀ file selections n, b.registry.fragments.length < n →
    visitSelections (visitSpread b.registry n) file selections [] =
      usedFragments b.registry file selections

/-- **Lowering ends where fragments lead to no cycle**, and so do all builds. -/
theorem lowering_ends {b : Builder} (h : b.registry.Acyclic) : b.Ends where
  operation := Builder.noCycle_buildOperation h
  namedFragment := Builder.noCycle_buildNamedFragment h
  document d := .map (.mapM fun definition _ => Builder.noCycle_buildDefinition h d definition) _
  all _ := .map (.mapM fun d _ => .mapM fun definition _ =>
    Builder.noCycle_buildDefinition h d definition) _
  loweringFile file selections := (traced_ofFile b.registry file selections).loweringEnds h
  loweringDefinition _ := (traced_ofFile _ _ _).loweringEnds h
  apart _ hf _ hc :=
    not_mem_enclosing_of_chain h (leadsInto_ofDefinition hf) List.not_mem_nil hc
  merging _ _ _ hn := mergeFieldsAt_of_le hn
  search file selections n hn := by
    obtain ⟨walk, hw⟩ := DepthFirst.exists b.registry [] (spreadsIn file selections)
    rw [visitSelections_eq_resolve hw hn, usedFragments_eq_resolve hw]

/-! ## Two fragments that spread each other

```
fragment There on N { id  ...Back }
fragment Back on N { id  ...There @skip(if: true) }
```
-/

namespace Sample

def there : RegisteredFragment where
  definition := ⟨⟨1, 1⟩, "There", "N", [select "id" [], .spread ⟨1, 1⟩ "Back" []]⟩
  file := none
  sourceText := "fragment There on N { id ...Back }"

def back : RegisteredFragment where
  definition :=
    ⟨⟨2, 1⟩, "Back", "N",
      [select "id" [],
        .spread ⟨2, 1⟩ "There" [⟨⟨2, 1⟩, "skip", [("if", .boolean true)]⟩]]⟩
  file := none
  sourceText := "fragment Back on N { id ...There @skip(if: true) }"

def thereAndBack : Registry := ⟨[there, back], by decide⟩

theorem not_includesSpread_nil {g : String} : ¬IncludesSpread [] g := by
  intro h
  cases h with
  | here hx _ => cases hx
  | field hx _ _ => cases hx
  | fragment hx _ _ => cases hx

/-- What a field without selections and a spread include. -/
theorem includesSpread_pair {directives : List Directive} {p : Position} {f g : String}
    (h : IncludesSpread [select "id" [], .spread p f directives] g) :
    g = f ∧ ruledOut directives = false := by
  cases h with
  | here hx hr =>
    simp only [select, List.mem_cons, reduceCtorEq, Selection.spread.injEq, List.not_mem_nil,
      or_false, false_or] at hx
    obtain ⟨-, rfl, rfl⟩ := hx
    exact ⟨rfl, hr⟩
  | field hx _ h =>
    simp only [select, List.mem_cons, Selection.field.injEq, reduceCtorEq, List.not_mem_nil,
      or_false] at hx
    obtain ⟨-, rfl⟩ := hx
    exact absurd h not_includesSpread_nil
  | fragment hx _ _ => simp [select] at hx

/-- `There` leads to `Back`, which leads nowhere. -/
theorem leadsTo_thereAndBack {f g : String} (h : thereAndBack.LeadsTo f g) :
    f = "There" ∧ g = "Back" := by
  obtain ⟨d, hd, hs, -⟩ := h
  have hname := Registry.name_of_get? hd
  have hmem : d ∈ [there, back] := List.mem_of_find?_eq_some hd
  rcases List.mem_pair.1 hmem with rfl | rfl
  · exact ⟨hname.symm, (includesSpread_pair hs).1⟩
  · exact absurd (includesSpread_pair hs).2 (by decide)

theorem acyclic_thereAndBack : thereAndBack.Acyclic := by
  intro f h
  obtain ⟨g, hfg, -⟩ := Relation.TransGen.head'_iff.1 h
  obtain ⟨e, -, hef⟩ := Relation.TransGen.tail'_iff.1 h
  have hback := (leadsTo_thereAndBack hef).2
  rw [(leadsTo_thereAndBack hfg).1] at hback
  exact absurd hback (by decide)

end Sample

/-- From a spread of `There`, lowering calls itself three times at most in a chain. -/
theorem sample_lowering_ends :
    Builder.Ends ⟨Sample.schema, Sample.thereAndBack, {}⟩ ∧
      EndWithin Sample.thereAndBack 4 (Selected.ofFile none [.spread ⟨1, 1⟩ "There" []]) := by
  have h : Builder.Ends ⟨Sample.schema, Sample.thereAndBack, {}⟩ :=
    lowering_ends Sample.acyclic_thereAndBack
  exact ⟨h, (h.loweringFile none _).bounded 1 (by decide)⟩

end SelectionModel
