import SelectionModel.Proofs.Lowering.Built
import SelectionModel.Proofs.Lowering.Defects
import SelectionModel.Proofs.Lowering.Provenance
import SelectionModel.Proofs.Sample

/-!
# Locations are truthful

The location of a field is that of a selection with its names, in the file in which that is
written, and the field has the arguments of this selection. Its type is the one that the
selection is lowered on, where what is below fields of one response name goes by the first
of them. The location of an error is that of a selection or definition with the defect that
the error names.

* `Builder.loweredFrom_data`, `Builder.loweredFrom_selectionSet`,
  `Builder.loweredFrom_defaultSelectionSet`: the fields of what is built.
* `Builder.defect_of_buildOperation`, `Builder.defect_of_buildNamedFragment`: the errors.
* `locations_truthful`: **fields and errors are what their locations say.**
* `locations_mistyped`: what is below the second of two different fields with one response
  name has the type that the first one gives it.
-/

namespace SelectionModel

namespace Builder

variable {b : Builder}

/-! ## Fields -/

theorem loweredFrom_data {d : Document} {o : OperationDefinition} {op : Operation}
    (h : b.buildOperation d o = .ok op) :
    ∀ c ∈ op.data.subfields, c.Everywhere (Field.LoweredFrom b.schema b.registry op.rootType
      (Selected.ofFile d.file o.selections)) := by
  obtain ⟨_, _, _, _, ht, hp, he⟩ := lowersPlace_data h
  rw [he, ← ht]
  exact hp.loweredFrom

theorem loweredFrom_selectionSet {f : RegisteredFragment} {nf : NamedFragment}
    (h : b.buildNamedFragment f = .ok nf) :
    ∀ c ∈ nf.selectionSet.subfields, c.Everywhere
      (Field.LoweredFrom b.schema b.registry f.typeCondition (Selected.ofDefinition f)) := by
  obtain ⟨_, _, hp, he⟩ := lowersPlace_selectionSet h
  rw [he]
  exact hp.loweredFrom

/-- The additional keys of the default selection set do not matter. -/
theorem loweredFrom_defaultSelectionSet {f : RegisteredFragment} {nf : NamedFragment}
    (h : b.buildNamedFragment f = .ok nf) :
    ∀ c ∈ nf.defaultSelectionSet.subfields, c.Everywhere
      (Field.LoweredFrom b.schema b.registry f.typeCondition (Selected.ofDefinition f)) := by
  obtain ⟨_, _, derive, hp, he⟩ := lowersPlace_defaultSelectionSet h
  rw [he, SelectionSet.subfields_withDerivedKeys]
  exact keptByKeys_loweredFrom.forall_map derive hp.loweredFrom

/-! ## Errors -/

/-- **An operation fails because of a defect** among its selections, or in a fragment. What is
wrong with the operation itself is not about a node. -/
theorem defect_of_buildOperation {d : Document} {o : OperationDefinition} {e : BuildError}
    (h : b.buildOperation d o = .error e) (ha : e.AboutNode) :
    ∃ rootType, b.schema.root? o.kind = some rootType ∧
      Defect b.schema b.registry rootType (Selected.ofFile d.file o.selections) e := by
  have hbuild : Except.FailsWith (fun e => e.AboutNode → ∃ rootType,
      b.schema.root? o.kind = some rootType ∧
        Defect b.schema b.registry rootType (Selected.ofFile d.file o.selections) e)
      (b.buildOperation d o) := by
    apply failsWith_buildOperation
    · exact fun _ ha => ha.elim
    · exact fun _ _ ha => ha.elim
    · exact fun _ _ ha => ha.elim
    · intro declared rootType hr e he ha
      have hlower := defect_of_lowerPlace ⟨b.schema, true⟩ b.registry
        (b.operationPlace o declared rootType) (Selected.ofFile d.file o.selections)
      exact ⟨rootType, hr, hlower e he ha⟩
    · intro rootType hr e he ha
      have hused := defect_of_usedFragments b.schema b.registry rootType
        (Selected.ofFile d.file o.selections)
      exact ⟨rootType, hr, hused e he ha⟩
  exact hbuild e h ha

/-- **A fragment fails because of a defect** among its selections, or in a fragment, which may
be this one. -/
theorem defect_of_buildNamedFragment {f : RegisteredFragment} {e : BuildError}
    (h : b.buildNamedFragment f = .error e) (ha : e.AboutNode) :
    e = .undefinedType f.typeCondition f.location ∧ b.schema.type? f.typeCondition = none ∨
      Defect b.schema b.registry f.typeCondition (Selected.ofDefinition f) e := by
  have hbuild : Except.FailsWith (fun e => e.AboutNode →
      e = .undefinedType f.typeCondition f.location ∧ b.schema.type? f.typeCondition = none ∨
        Defect b.schema b.registry f.typeCondition (Selected.ofDefinition f) e)
      (b.buildNamedFragment f) := by
    apply failsWith_buildNamedFragment
    · exact fun hn _ => .inl ⟨rfl, hn⟩
    · intro implementations e he ha
      have hlower := defect_of_lowerPlace ⟨b.schema, implementations⟩ b.registry (fragmentPlace f)
        (Selected.ofDefinition f)
      exact .inr (hlower e he ha)
  exact hbuild e h ha

end Builder

/-! ## Fields and errors -/

/-- **Fields and errors are what their locations say.** Every field below what is built is
lowered from a selection at its location. An error about a node names a defect at its
location. Where fields of one response name agree, selections are lowered on the types that
they stand on. -/
structure LocationsTruthful (b : Builder) : Prop where
  operation : ∀ d o op, b.buildOperation d o = .ok op → ∀ c ∈ op.data.subfields, c.Everywhere
    (Field.LoweredFrom b.schema b.registry op.rootType (Selected.ofFile d.file o.selections))
  selectionSet : ∀ f nf, b.buildNamedFragment f = .ok nf →
    ∀ c ∈ nf.selectionSet.subfields, c.Everywhere
      (Field.LoweredFrom b.schema b.registry f.typeCondition (Selected.ofDefinition f))
  defaultSelectionSet : ∀ f nf, b.buildNamedFragment f = .ok nf →
    ∀ c ∈ nf.defaultSelectionSet.subfields, c.Everywhere
      (Field.LoweredFrom b.schema b.registry f.typeCondition (Selected.ofDefinition f))
  operationError : ∀ d o e, b.buildOperation d o = .error e → e.AboutNode →
    ∃ rootType, b.schema.root? o.kind = some rootType ∧
      Defect b.schema b.registry rootType (Selected.ofFile d.file o.selections) e
  fragmentError : ∀ f e, b.buildNamedFragment f = .error e → e.AboutNode →
    e = .undefinedType f.typeCondition f.location ∧ b.schema.type? f.typeCondition = none ∨
      Defect b.schema b.registry f.typeCondition (Selected.ofDefinition f) e
  types : ∀ type start, NamesAgree b.schema b.registry type start → ∀ t file x,
    LoweredOn b.schema b.registry type start t file x →
      StandsOn b.schema b.registry type start t file x

/-- **Locations are truthful**, whatever is built with whatever fragments. -/
theorem locations_truthful (b : Builder) : LocationsTruthful b where
  operation _ _ _ h := Builder.loweredFrom_data h
  selectionSet _ _ h := Builder.loweredFrom_selectionSet h
  defaultSelectionSet _ _ h := Builder.loweredFrom_defaultSelectionSet h
  operationError _ _ _ h ha := Builder.defect_of_buildOperation h ha
  fragmentError _ _ h ha := Builder.defect_of_buildNamedFragment h ha
  types _ _ h _ _ _ hx := standsOn_of_namesAgree h hx

namespace Sample

/-- An operation that selects a field which its type does not have. -/
def misspelled : OperationDefinition := { operation with selections := [select "nodes" []] }

/-- A fragment on a type that is not defined. -/
def unplaced : RegisteredFragment where
  definition := ⟨⟨3, 1⟩, "U", "Unknown", []⟩
  file := some "unplaced.graphql"
  sourceText := "fragment U on Unknown"

/-- What it selects is lowered alone, as nothing stands below it. -/
theorem loweredTogether_misspelled {t : String} {s : Selected}
    (h : LoweredTogether schema registry "Query" (Selected.ofFile none misspelled.selections) t s) :
    t = "Query" ∧ s = Selected.ofFile none misspelled.selections := by
  induction h with
  | start => exact ⟨rfl, rfl⟩
  | @field t s name first rest d _ hi hd ih =>
    obtain ⟨rfl, rfl⟩ := ih
    have hincluded : first ∈ Selected.included _ name := hi ▸ List.mem_cons_self
    obtain rfl := List.mem_singleton.1 (mem_included hincluded).1
    cases hd
  | fragment _ hf _ _ ih =>
    obtain ⟨rfl, rfl⟩ := ih
    cases hf

theorem namesAgree_misspelled :
    NamesAgree schema registry "Query" (Selected.ofFile none misspelled.selections) := by
  intro t s h name f hf g hg
  obtain ⟨rfl, rfl⟩ := loweredTogether_misspelled h
  obtain rfl := List.mem_singleton.1 (mem_included hf).1
  obtain rfl := List.mem_singleton.1 (mem_included hg).1
  rfl

theorem error_misspelled :
    builder.buildOperation document misspelled =
      .error (.undefinedField "nodes" "Query" (.executable ⟨none, ⟨1, 1⟩⟩)) := rfl

theorem error_unplaced :
    builder.buildNamedFragment unplaced =
      .error (.undefinedType "Unknown" (.executable ⟨some "unplaced.graphql", ⟨3, 1⟩⟩)) := rfl

end Sample

/-- The sample, with a field that is not there and a fragment on no type. -/
theorem sample_locations_truthful :
    (∃ op, Sample.builder.buildOperation Sample.document Sample.operation = .ok op ∧
      ∀ c ∈ op.data.subfields, c.Everywhere (Field.LoweredFrom Sample.schema Sample.registry
        op.rootType (Selected.ofFile none Sample.operation.selections))) ∧
    (∃ nf, Sample.builder.buildNamedFragment Sample.fragment = .ok nf ∧
      ∀ c ∈ nf.selectionSet.subfields ++ nf.defaultSelectionSet.subfields,
        c.Everywhere (Field.LoweredFrom Sample.schema Sample.registry "A"
          (Selected.ofDefinition Sample.fragment))) ∧
    (∃ rootType, Sample.schema.root? Sample.misspelled.kind = some rootType ∧
      Defect Sample.schema Sample.registry rootType
        (Selected.ofFile none Sample.misspelled.selections)
        (.undefinedField "nodes" "Query" (.executable ⟨none, ⟨1, 1⟩⟩))) ∧
    (Sample.schema.type? "Unknown" = none ∨
      Defect Sample.schema Sample.registry "Unknown" (Selected.ofDefinition Sample.unplaced)
        (.undefinedType "Unknown" (.executable ⟨some "unplaced.graphql", ⟨3, 1⟩⟩))) ∧
    StandsOn Sample.schema Sample.registry "Query"
      (Selected.ofFile none Sample.misspelled.selections) "Query" none
      (Sample.select "nodes" []) := by
  have h := locations_truthful Sample.builder
  refine ⟨?_, ?_, ?_, ?_, ?_⟩
  · obtain ⟨op, hop⟩ := Sample.exists_operation
    exact ⟨op, hop, h.operation _ _ op hop⟩
  · obtain ⟨nf, hnf⟩ := Sample.exists_namedFragment
    refine ⟨nf, hnf, ?_⟩
    exact List.forall_mem_append.2 ⟨h.selectionSet _ nf hnf, h.defaultSelectionSet _ nf hnf⟩
  · exact h.operationError _ _ _ Sample.error_misspelled trivial
  · exact (h.fragmentError _ _ Sample.error_unplaced trivial).imp_left And.right
  · apply h.types _ _ Sample.namesAgree_misspelled
    exact LoweredTogether.start.loweredOn List.mem_cons_self

/-! ## Two fields with one response name

```
query Q { x: p { c } x: r { b } }
```
-/

namespace Sample

def clashSchema : Schema where
  types := [
    typeDefinition "Query" (.object [] [fieldDefinition "p" "P", fieldDefinition "r" "R"]),
    typeDefinition "P" (.object [] [fieldDefinition "c" "Int", fieldDefinition "b" "Int"]),
    typeDefinition "R" (.object [] [fieldDefinition "b" "String"])]
  query := "Query"
  mutation := none
  subscription := none

/-- A selected field at a column of the first line. -/
def selectAt (column : Nat) (aliasName : Option String) (name : String)
    (selections : List Selection) : Selection :=
  .field ⟨⟨1, column⟩, aliasName, name, [], []⟩ selections

def clash : OperationDefinition :=
  { operation with
    selections := [
      selectAt 11 (some "x") "p" [selectAt 18 none "c" []],
      selectAt 22 (some "x") "r" [selectAt 29 none "b" []]] }

def clashText : List Char := "query Q { x: p { c } x: r { b } }".toList

def clashDocument : Document :=
  ⟨none, clashText, LineIndex.ofText clashText, [.operation clash]⟩

def clashBuilder : Builder := ⟨clashSchema, .empty, {}⟩

/-- All that stands in the operation, with its types. -/
theorem standsOn_clash {t : String} {file : Option String} {x : Selection}
    (h : StandsOn clashSchema .empty "Query" (Selected.ofFile none clash.selections) t file x) :
    t = "Query" ∧ x = selectAt 11 (some "x") "p" [selectAt 18 none "c" []] ∨
      t = "Query" ∧ x = selectAt 22 (some "x") "r" [selectAt 29 none "b" []] ∨
      t = "P" ∧ x = selectAt 18 none "c" [] ∨ t = "R" ∧ x = selectAt 29 none "b" [] := by
  induction h with
  | start hx =>
    rcases List.mem_cons.1 hx with rfl | hx
    · exact .inl ⟨rfl, rfl⟩
    · exact .inr (.inl ⟨rfl, List.mem_singleton.1 hx⟩)
  | field _ hd hx ih =>
    rcases ih with ⟨rfl, he⟩ | ⟨rfl, he⟩ | ⟨rfl, he⟩ | ⟨rfl, he⟩ <;>
      obtain ⟨rfl, rfl⟩ := Selection.field.inj he
    · obtain rfl := Option.some.inj hd
      exact .inr (.inr (.inl ⟨rfl, List.mem_singleton.1 hx⟩))
    · obtain rfl := Option.some.inj hd
      exact .inr (.inr (.inr ⟨rfl, List.mem_singleton.1 hx⟩))
    · cases hx
    · cases hx
  | inPlace _ _ ih => rcases ih with ⟨-, he⟩ | ⟨-, he⟩ | ⟨-, he⟩ | ⟨-, he⟩ <;> cases he
  | registered _ hd => cases hd

end Sample

/-- **What is below different fields with one response name** is lowered on the type of the
first one. So the field `b` is said to be an `Int`, which is what `b` is on `P`, though its
location is below `r`, where it is a `String`. -/
theorem locations_mistyped :
    ∃ op, Sample.clashBuilder.buildOperation Sample.clashDocument Sample.clash = .ok op ∧
      ∃ c ∈ op.data.subfields, ∃ f : Field, f.IsIn c ∧
        ¬∃ t file head selections d,
          StandsOn Sample.clashSchema .empty op.rootType
            (Selected.ofFile none Sample.clash.selections) t file (.field head selections) ∧
          f.location = .executable ⟨file, head.position⟩ ∧
          Sample.clashSchema.field? t head.name = some d ∧ f.type = d.type := by
  obtain ⟨op, hop, hroot, hb⟩ := Except.exists_of_any
    (x := Sample.clashBuilder.buildOperation Sample.clashDocument Sample.clash)
    (p := fun op => op.rootType = "Query" ∧ ∃ c ∈ op.data.fields, ∃ f ∈ c.fields,
      f.location = .executable ⟨none, ⟨1, 29⟩⟩ ∧ f.type = .named true "Int") (by decide +kernel)
  obtain ⟨c, hc, f, hf, hlocation, htype⟩ := hb
  refine ⟨op, hop, c, mem_subfieldsOf.2 (.inl hc), f, ?_, ?_⟩
  · exact .under (mem_subfieldsOf.2 (.inl hf)) .root
  · rintro ⟨t, file, head, selections, d, hx, hl, hd, ht⟩
    rw [hlocation] at hl
    rw [htype] at ht
    rw [hroot] at hx
    -- only one selection stands at the location of the field
    rcases Sample.standsOn_clash hx with ⟨-, he⟩ | ⟨-, he⟩ | ⟨-, he⟩ | ⟨rfl, he⟩ <;>
      obtain ⟨rfl, rfl⟩ := Selection.field.inj he
    · cases hl
    · cases hl
    · cases hl
    · obtain rfl := Option.some.inj hd
      exact absurd ht (by decide)

end SelectionModel
