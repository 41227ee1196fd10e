import SelectionModel.Proofs.Lowering.Built
import SelectionModel.Proofs.Sample
import SelectionModel.Proofs.Source.Scan
import SelectionModel.Proofs.UsedFragments.Search

/-!
# The text of an operation

The text of an operation goes with the texts of the fragments that it uses. All of them
were cut out of documents, so they end with a brace, and no line break is lost where the
whole is trimmed.

* `Registry.Loaded`: the registries that can be put together from documents.
* `Registry.Loaded.cut`: the texts of their fragments are cut out of documents.
* `operation_text_closed`: **the text of an operation is closed and minimal.**
-/

namespace SelectionModel

/-! ## Registries -/

/-- A registered fragment stands in a document, and its text is cut out of that. -/
def RegisteredFragment.CutFrom (f : RegisteredFragment) (d : Document) : Prop :=
  f.definition ∈ d.fragments ∧ f.file = d.file ∧
    d.definitionSource? f.definition.position = some f.sourceText

/-- **The registries that can be put together**: fragments are added by document, or one
by one from another registry. What fails leaves in what it added before. -/
inductive Registry.Loaded : Registry → Prop where
  | empty : Loaded .empty
  | document {r : Registry} (d : Document) : Loaded r → Loaded (r.addDocument d).1
  | fragment {r s t : Registry} {f : RegisteredFragment} : Loaded r → Loaded s →
    f ∈ s.fragments → r.add f = .ok t → Loaded t

namespace Registry

theorem fragments_of_add {r s : Registry} {f : RegisteredFragment} (h : r.add f = .ok s) :
    s.fragments = r.fragments ++ [f] := by
  rw [add] at h
  split at h
  · cases h
  · obtain rfl := Except.ok.inj h
    rfl

/-- What holds of the fragments of a registry and of those of a document holds of all. -/
theorem forall_addFragments {p : RegisteredFragment → Prop} {d : Document}
    (hd : ∀ f : RegisteredFragment, f.CutFrom d → p f) {fs : List FragmentDefinition}
    (hfs : ∀ f ∈ fs, f ∈ d.fragments) {r : Registry} (hr : ∀ f ∈ r.fragments, p f) :
    ∀ f ∈ (addFragments d fs r).1.fragments, p f := by
  induction fs generalizing r with
  | nil => exact hr
  | cons g fs ih =>
    obtain ⟨hg, hfs⟩ := List.forall_mem_cons.1 hfs
    rw [addFragments]
    split
    · exact hr
    next text htext =>
    split
    next s hs =>
      have hcut : RegisteredFragment.CutFrom ⟨g, d.file, text⟩ d := ⟨hg, rfl, htext⟩
      refine ih hfs ?_
      rw [fragments_of_add hs]
      exact List.forall_mem_append.2 ⟨hr, List.forall_mem_singleton.2 (hd _ hcut)⟩
    · exact hr

/-- **The texts in a registry are cut out of documents.** -/
theorem Loaded.cut {r : Registry} (h : r.Loaded) : ∀ f ∈ r.fragments, ∃ d, f.CutFrom d := by
  induction h with
  | empty => exact fun _ hf => absurd hf List.not_mem_nil
  | document d _ ih => exact forall_addFragments (fun _ hf => ⟨d, hf⟩) (fun _ => id) ih
  | fragment _ _ hf hadd ihr ihs =>
    rw [fragments_of_add hadd]
    exact List.forall_mem_append.2 ⟨ihr, List.forall_mem_singleton.2 (ihs _ hf)⟩

end Registry

/-! ## Texts -/

/-- A text that is cut out of a document ends with a brace. -/
theorem getLast?_of_definitionSource? {d : Document} {p : Position} {text : String}
    (h : d.definitionSource? p = some text) : text.toList.getLast? = some '\x7d' := by
  obtain ⟨start, -, h⟩ := Option.bind_eq_some_iff.1 h
  obtain ⟨found, hf, rfl⟩ := Option.map_eq_some_iff.1 h
  obtain ⟨rest, -, hs⟩ := Option.bind_eq_some_iff.1 hf
  rw [String.toList_ofList]
  exact DefinitionText.getLast?_of_scan hs

/-- Nothing is dropped at the end of a list whose last element is to stay. -/
theorem Text.dropWhileEnd_of_getLast? {α : Type} {p : α → Bool} {l : List α} {a : α}
    (h : l.getLast? = some a) (ha : p a = false) : Text.dropWhileEnd p l = l := by
  obtain ⟨init, rfl⟩ := List.getLast?_eq_some_iff.1 h
  simp [Text.dropWhileEnd, ha]

/-- Texts that all end in the same way do so when they are put together. -/
theorem getLast?_intercalate {c : Char} {text : String} {texts : List String}
    (h : ∀ t ∈ text :: texts, t.toList.getLast? = some c) :
    (String.intercalate "\n" (text :: texts)).toList.getLast? = some c := by
  induction texts generalizing text with
  | nil =>
    rw [String.intercalate_singleton]
    exact h text List.mem_cons_self
  | cons t ts ih =>
    have hts := ih (List.forall_mem_cons.1 h).2
    rw [String.intercalate_cons_cons, String.toList_append, String.toList_append,
      List.getLast?_append, hts]
    rfl

namespace Builder

variable {b : Builder} {d : Document} {o : OperationDefinition}

/-- The text of an operation is its own one and then those of the fragments that it uses. -/
theorem operationText_eq_ok (hl : b.registry.Loaded) {name text : String}
    (h : b.operationText d o name = .ok text) :
    ∃ own used, d.definitionSource? o.position = some own ∧
      usedFragments b.registry d.file o.selections = .ok used ∧
      text = String.intercalate "\n" (own :: used.map RegisteredFragment.sourceText) := by
  rw [operationText] at h
  split at h
  · exact absurd h Except.throw_ne_ok
  next own hown =>
  obtain ⟨used, hu, h⟩ := Except.bind_eq_ok.1 h
  obtain rfl := Except.ok.inj h
  refine ⟨own, used, hown, hu, ?_⟩
  -- the used fragments are registered, so their texts end with a brace as well
  have hused : ∀ f ∈ used, f ∈ b.registry.fragments := by
    obtain ⟨walk, hw⟩ := DepthFirst.exists b.registry [] (spreadsIn d.file o.selections)
    rw [usedFragments_eq_resolve hw] at hu
    intro f hf
    exact List.mem_of_find?_eq_some (((Registry.names_of_resolve hu).2 f).1 hf).1
  have hend : ∀ t ∈ own :: used.map RegisteredFragment.sourceText,
      t.toList.getLast? = some '\x7d' := by
    refine List.forall_mem_cons.2 ⟨getLast?_of_definitionSource? hown, ?_⟩
    intro t ht
    obtain ⟨f, hf, rfl⟩ := List.mem_map.1 ht
    obtain ⟨e, -, -, he⟩ := hl.cut f (hused f hf)
    exact getLast?_of_definitionSource? he
  rw [Text.dropWhileEnd_of_getLast? (getLast?_intercalate hend) rfl, String.ofList_toList]

theorem text_of_buildOperation {op : Operation} (h : b.buildOperation d o = .ok op) :
    ∃ declared, b.operationText d o declared = .ok op.sourceText := by
  obtain ⟨declared, _, _, _, -, -, -, ht, -⟩ := parts_of_buildOperation h
  exact ⟨declared, ht⟩

end Builder

/-- **The text of an operation is closed and minimal.** The search for used fragments
ends, whatever spreads what. It fails when a spread is reached that names no registered
fragment, at the first one on a depth-first walk. Otherwise it gives the fragments that
are reached, each once, in the order of first use, and the text of an operation that is
built is its own one and then theirs, one line break apart. -/
theorem operation_text_closed (b : Builder) (d : Document) (o : OperationDefinition) :
    ∃ walk, DepthFirst b.registry [] (spreadsIn d.file o.selections) walk ∧
      (∀ x, x ∈ walk ↔ Reaches b.registry (spreadsIn d.file o.selections) x) ∧
      (∀ bound, b.registry.fragments.length < bound →
        visitSelections (visitSpread b.registry bound) d.file o.selections [] =
          usedFragments b.registry d.file o.selections) ∧
      ((∃ e, usedFragments b.registry d.file o.selections = .error e) ↔
        ∃ x ∈ walk, b.registry.get? x.name = none) ∧
      (∀ e, usedFragments b.registry d.file o.selections = .error e →
        ∃ x, walk.find? b.registry.lacks = some x ∧ e = .undefinedFragment x.name x.location) ∧
      (∀ used, usedFragments b.registry d.file o.selections = .ok used →
        used.map RegisteredFragment.name = firstUses walk ∧ (firstUses walk).Nodup ∧
          ∀ f, f ∈ used ↔ b.registry.get? f.name = some f ∧ ∃ x ∈ walk, x.name = f.name) ∧
      (b.registry.Loaded → ∀ op, b.buildOperation d o = .ok op →
        ∃ own used, d.definitionSource? o.position = some own ∧
          usedFragments b.registry d.file o.selections = .ok used ∧
          op.sourceText =
            String.intercalate "\n" (own :: used.map RegisteredFragment.sourceText)) := by
  obtain ⟨walk, hw⟩ := DepthFirst.exists b.registry [] (spreadsIn d.file o.selections)
  have hr := usedFragments_eq_resolve hw
  refine ⟨walk, hw, fun _ => hw.mem_iff, ?_, ?_, ?_, ?_, ?_⟩
  · intro bound hb
    rw [hr, visitSelections_eq_resolve hw hb]
  · rw [hr, Registry.exists_resolve_eq_error]
  · intro e he
    exact Registry.resolve_eq_error.1 (hr ▸ he)
  · intro used hu
    have hnames := Registry.names_of_resolve (hr ▸ hu)
    exact ⟨hnames.1, (OrderedSet.ofList _).nodup, hnames.2⟩
  · intro hl op hop
    obtain ⟨declared, ht⟩ := Builder.text_of_buildOperation hop
    exact Builder.operationText_eq_ok hl ht

namespace Sample

/-- A document with an operation and the fragment that it spreads twice. -/
def spreadingText : List Char := "query Q { node { ...F ...F } }\nfragment F on A { x }".toList

/-- The fragment of that document. -/
def spreadFragment : FragmentDefinition := ⟨⟨2, 1⟩, "F", "A", [select "x" []]⟩

/-- The operation of that document. -/
def spreadingOperation : OperationDefinition where
  position := ⟨1, 1⟩
  keyword := some .query
  name := some "Q"
  variableDefinitions := []
  selections := [select "node" [.spread ⟨1, 1⟩ "F" [], .spread ⟨1, 1⟩ "F" []]]

def spreadingDocument : Document :=
  ⟨none, spreadingText, LineIndex.ofText spreadingText,
    [.operation spreadingOperation, .fragment spreadFragment]⟩

def spreadingBuilder : Builder := ⟨schema, (Registry.empty.addDocument spreadingDocument).1, {}⟩

end Sample

theorem sample_text_closed :
    Sample.spreadingBuilder.registry.Loaded ∧
      ∃ op, Sample.spreadingBuilder.buildOperation Sample.spreadingDocument
          Sample.spreadingOperation = .ok op ∧
        op.sourceText = "query Q { node { ...F ...F } }\nfragment F on A { x }" := by
  have hl : Sample.spreadingBuilder.registry.Loaded := .document _ .empty
  obtain ⟨op, hop, -⟩ := Except.exists_of_any (p := fun _ => True)
    (x := Sample.spreadingBuilder.buildOperation Sample.spreadingDocument
      Sample.spreadingOperation) (by decide +kernel)
  obtain ⟨-, -, -, -, -, -, -, ht⟩ := operation_text_closed Sample.spreadingBuilder
    Sample.spreadingDocument Sample.spreadingOperation
  obtain ⟨own, used, hown, hused, he⟩ := ht hl op hop
  have hown' : Sample.spreadingDocument.definitionSource? Sample.spreadingOperation.position =
      some "query Q { node { ...F ...F } }" := by decide +kernel
  obtain ⟨found, hfound, htexts⟩ := Except.exists_of_any
    (x := usedFragments Sample.spreadingBuilder.registry none Sample.spreadingOperation.selections)
    (p := fun used => used.map RegisteredFragment.sourceText = ["fragment F on A { x }"])
    (by decide +kernel)
  have hsame : used = found := Except.ok.inj (hused.symm.trans hfound)
  refine ⟨hl, op, hop, ?_⟩
  rw [he, hsame, htexts, Option.some.inj (hown.symm.trans hown')]
  rfl

end SelectionModel
