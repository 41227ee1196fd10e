import SelectionModel.Proofs.Lowering.Built
import SelectionModel.Proofs.Lowering.Sources
import SelectionModel.Proofs.Sample

/-!
# Conditions of merged fields

A field of a tree is merged from all of its copies: from those that stand side by side, from
those below merged fields, from those that a fragment inherits, and from those that meet in
an interface or an implementation. Its conditions are the ones of all copies, so they hold
just when every copy is let through.

* `FieldCopies.saysAll`: the conditions of a field anywhere in a tree.
* `conditions_of_copies`: **what the conditions of fields mean**, in every built tree.
-/

namespace SelectionModel

section Tree

variable {schema : Schema} {registry : Registry} {root : Model} {start : TypedSelections}

/-- **Every model of a tree is made from its sources**, if the root is. -/
theorem ModelSources.modelFrom {m : Model} {sources : Set TypedSelections}
    (h : ModelSources schema registry root start m sources)
    (hr : ModelFrom schema registry root.fields root.fragments {start}) :
    ModelFrom schema registry m.fields m.fragments sources := by
  induction h with
  | root => exact hr
  | own _ hf ih => exact (Field.madeFrom_iff.1 (ih.own.made _ hf)).2
  | fragment _ hg hf ih => exact (Field.madeFrom_iff.1 ((ih.fragment _ hg).made _ hf)).2

/-- The conditions of a field say that all of its copies are let through. -/
theorem FieldCopies.saysAll {f : Field} {copies : Set SelectedField}
    (h : FieldCopies schema registry root start f copies)
    (hr : ModelFrom schema registry root.fields root.fragments {start}) : f.SaysAll copies := by
  cases h with
  | own hm hf => exact (Field.madeFrom_iff.1 ((hm.modelFrom hr).own.made _ hf)).1
  | fragment hm hg hf =>
    exact (Field.madeFrom_iff.1 (((hm.modelFrom hr).fragment _ hg).made _ hf)).1

/-- All conditions of a field hold exactly when each of its copies is let through. -/
theorem FieldCopies.holds_iff {f : Field} {copies : Set SelectedField}
    (h : FieldCopies schema registry root start f copies)
    (hr : ModelFrom schema registry root.fields root.fragments {start}) (values : String → Bool) :
    (∀ c ∈ f.conditions, c.Holds values) ↔ ∀ n ∈ copies, n.Admitted values := by
  have hall := h.saysAll hr
  cases h with
  | own => exact hall.holds_iff values
  | fragment => exact hall.holds_iff values

end Tree

/-- **The conditions of the fields of a tree mean that every copy is selected.** Every field
has copies; its conditions are those of the copies, each of them once; and whenever they all
hold, all copies are let through, of which there is one at least. -/
structure ConditionsMean (schema : Schema) (registry : Registry) (root : Model)
    (start : TypedSelections) : Prop where
  copies : ∀ f ∈ subfieldsOf root.fields root.fragments,
    f.Everywhere fun c => ∃ copies, FieldCopies schema registry root start c copies
  saysAll : ∀ f copies, FieldCopies schema registry root start f copies → f.SaysAll copies
  holds : ∀ f copies, FieldCopies schema registry root start f copies → ∀ values : String → Bool,
    (∀ c ∈ f.conditions, c.Holds values) ↔ ∀ n ∈ copies, n.Admitted values
  selected : ∀ f copies, FieldCopies schema registry root start f copies →
    ∀ values : String → Bool, (∀ c ∈ f.conditions, c.Holds values) →
      ∃ n ∈ copies, n.Admitted values

/-- Conditions mean that in a tree whose root is made from its selections. -/
theorem conditionsMean_of_modelFrom {schema : Schema} {registry : Registry} {root : Model}
    {start : TypedSelections} (hr : ModelFrom schema registry root.fields root.fragments {start}) :
    ConditionsMean schema registry root start where
  copies _ hf := ModelSources.root.exists_copies hf
  saysAll _ _ h := h.saysAll hr
  holds _ _ h values := h.holds_iff hr values
  selected f copies h values hc := by
    obtain ⟨n, hn⟩ := (h.saysAll hr).nonempty
    exact ⟨n, hn, (h.holds_iff hr values).1 hc n hn⟩

namespace Builder

variable {b : Builder}

theorem modelFrom_operation {d : Document} {o : OperationDefinition} {op : Operation}
    (h : b.buildOperation d o = .ok op) :
    ModelFrom b.schema b.registry op.data.fields op.data.fragments
      {⟨op.rootType, o.selections⟩} := by
  obtain ⟨_, _, _, _, ht, hp, he⟩ := lowersPlace_data h
  rw [he, ← ht]
  exact hp.modelFrom

theorem modelFrom_selectionSet {f : RegisteredFragment} {nf : NamedFragment}
    (h : b.buildNamedFragment f = .ok nf) :
    ModelFrom b.schema b.registry nf.selectionSet.fields nf.selectionSet.fragments
      {⟨f.typeCondition, f.selections⟩} := by
  obtain ⟨_, _, hp, he⟩ := lowersPlace_selectionSet h
  rw [he]
  exact hp.modelFrom

theorem modelFrom_defaultSelectionSet {f : RegisteredFragment} {nf : NamedFragment}
    (h : b.buildNamedFragment f = .ok nf) :
    ModelFrom b.schema b.registry nf.defaultSelectionSet.fields nf.defaultSelectionSet.fragments
      {⟨f.typeCondition, f.selections⟩} := by
  obtain ⟨_, _, derive, hp, he⟩ := lowersPlace_defaultSelectionSet h
  rw [he, SelectionSet.fields_withDerivedKeys, SelectionSet.fragments_withDerivedKeys]
  exact hp.modelFrom.withDerivedKeys derive

end Builder

/-- **The conditions of a merged field mean that every copy is selected**, in the data field
of every operation and in both selection sets of every fragment. -/
theorem conditions_of_copies (b : Builder) :
    (∀ (d : Document) (o : OperationDefinition) (op : Operation), b.buildOperation d o = .ok op →
      ConditionsMean b.schema b.registry op.data.model ⟨op.rootType, o.selections⟩) ∧
    (∀ (f : RegisteredFragment) (nf : NamedFragment), b.buildNamedFragment f = .ok nf →
      ConditionsMean b.schema b.registry nf.selectionSet.model ⟨f.typeCondition, f.selections⟩ ∧
      ConditionsMean b.schema b.registry nf.defaultSelectionSet.model
        ⟨f.typeCondition, f.selections⟩) := by
  constructor
  · intro d o op h
    exact conditionsMean_of_modelFrom (Builder.modelFrom_operation h)
  · intro f nf h
    exact ⟨conditionsMean_of_modelFrom (Builder.modelFrom_selectionSet h),
      conditionsMean_of_modelFrom (Builder.modelFrom_defaultSelectionSet h)⟩

/-! ## Copies under conditions

```
query Q($a: Boolean!, $b: Boolean!, $c: Boolean!) { node { id @include(if: $a) ...C } }
fragment C on N { id @skip(if: $b) ... on A { id @include(if: $c) } }
```
-/

namespace Sample

/-- The field `id` under a directive on a variable. -/
def idUnder (directive condition : String) : Selection :=
  .field ⟨⟨1, 1⟩, none, "id", [], [⟨⟨1, 1⟩, directive, [("if", .variable condition)]⟩]⟩ []

/-- The fragment `C`. -/
def copied : RegisteredFragment where
  definition := ⟨⟨2, 1⟩, "C", "N", [idUnder "skip" "b", on "A" [idUnder "include" "c"]]⟩
  file := none
  sourceText := "fragment C on N { id @skip(if: $b) ... on A { id @include(if: $c) } }"

/-- The operation that spreads `C` beside another copy of `id`. -/
def copying : OperationDefinition where
  position := ⟨1, 1⟩
  keyword := some .query
  name := some "Q"
  variableDefinitions := ["a", "b", "c"].map fun name => ⟨name, .named false "Boolean", none⟩
  selections := [select "node" [idUnder "include" "a", .spread ⟨1, 1⟩ "C" []]]

/-- The text of the operation. -/
def copyingText : List Char :=
  ("query Q($a: Boolean!, $b: Boolean!, $c: Boolean!) " ++
    "{ node { id @include(if: $a) ...C } }").toList

def copyingDocument : Document :=
  ⟨none, copyingText, LineIndex.ofText copyingText, [.operation copying]⟩

def copyingBuilder : Builder := ⟨schema, ⟨[copied], List.pairwise_singleton _ _⟩, {}⟩

end Sample

/-- In the sample, `id` has the conditions of both copies where they are merged: on `N` in the
operation, and on `A` in the fragment. -/
theorem sample_conditions_of_copies :
    (∃ op, Sample.copyingBuilder.buildOperation Sample.copyingDocument Sample.copying = .ok op ∧
      ConditionsMean Sample.schema Sample.copyingBuilder.registry op.data.model
        ⟨op.rootType, Sample.copying.selections⟩ ∧
      ∃ node ∈ op.data.fields, ∃ i ∈ interfacesIn node.fragments, i.typeCondition = "N" ∧
        i.fields.map Field.conditions = [[⟨"a", false⟩, ⟨"b", true⟩]]) ∧
    (∃ nf, Sample.copyingBuilder.buildNamedFragment Sample.copied = .ok nf ∧
      ConditionsMean Sample.schema Sample.copyingBuilder.registry nf.selectionSet.model
        ⟨Sample.copied.typeCondition, Sample.copied.selections⟩ ∧
      ConditionsMean Sample.schema Sample.copyingBuilder.registry nf.defaultSelectionSet.model
        ⟨Sample.copied.typeCondition, Sample.copied.selections⟩ ∧
      ∃ i ∈ interfacesIn nf.selectionSet.fragments, i.typeCondition = "A" ∧
        i.fields.map Field.conditions = [[⟨"b", true⟩, ⟨"c", false⟩]]) := by
  obtain ⟨op, hop, hconditions⟩ := Except.exists_of_any
    (x := Sample.copyingBuilder.buildOperation Sample.copyingDocument Sample.copying)
    (p := fun op => ∃ node ∈ op.data.fields, ∃ i ∈ interfacesIn node.fragments,
      i.typeCondition = "N" ∧ i.fields.map Field.conditions = [[⟨"a", false⟩, ⟨"b", true⟩]])
    (by decide +kernel)
  obtain ⟨nf, hnf, hconditions'⟩ := Except.exists_of_any
    (x := Sample.copyingBuilder.buildNamedFragment Sample.copied)
    (p := fun nf => ∃ i ∈ interfacesIn nf.selectionSet.fragments,
      i.typeCondition = "A" ∧ i.fields.map Field.conditions = [[⟨"b", true⟩, ⟨"c", false⟩]])
    (by decide +kernel)
  obtain ⟨ho, hf⟩ := conditions_of_copies Sample.copyingBuilder
  obtain ⟨hset, hdefault⟩ := hf _ _ hnf
  exact ⟨⟨op, hop, ho _ _ _ hop, hconditions⟩, ⟨nf, hnf, hset, hdefault, hconditions'⟩⟩

end SelectionModel
