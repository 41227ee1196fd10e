import SelectionModel.Proofs.Collection.Behind
import SelectionModel.Proofs.Lowering.Complete
import SelectionModel.Proofs.Lowering.Erasure
import SelectionModel.Proofs.Lowering.Narrowing

/-!
# A spread realizes the interface of its fragment

A fragment is built on its own, and its selections are lowered once more wherever it is
spread, with other keys, inside of other fields and fragments, and merged with what else
is selected there. What it has on its own is found again at every such place.

* `LowersFragments.exists_inside`: what is lowered at an occurrence of a fragment.
* `Builder.exists_namedFragment`: a fragment that is spread can be built on its own.
* `spreads_realized`: **every spread in every built tree.**
-/

namespace SelectionModel

/-! ## Spreads -/

/-- **A fragment is spread in selections**, or in fragments among them, and no literal
rules the spread or a fragment around it out. -/
def Spreads (registry : Registry) (s : TypedSelections) (name : String) : Prop :=
  ∃ v, (v = s ∨ ∃ path, Occurs registry s path v) ∧
    ∃ position directives, .spread position name directives ∈ v.selections ∧
      ruledOut directives = false

section Lowering

variable {pass : Pass} {registry : Registry} {around : Enclosing} {s : Selected}
  {is : List Interface}

/-- What is lowered in a fragment is part of what is lowered, in order. -/
theorem LowersFragments.exists_nested
    (h : LowersFragments pass registry around s s.fragments is) {x : OccurringFragment}
    (hx : x ∈ (s.typed around.type).occurring registry) :
    ∃ (around' : Enclosing) (s' : Selected) (is' : List Interface),
      x.inside = s'.typed around'.type ∧
        LowersFragments pass registry around' s' s'.fragments is' ∧ is'.Sublist is := by
  obtain ⟨hf, hn, ht⟩ := TypedSelections.mem_occurring.1 hx
  obtain ⟨_, e, _, nested, -, he, -, -, hnested, hsub⟩ := h.entered_of_mem _ hf hn
  have hinside := Option.some.inj (ht.symm.trans (typed_of_enter he))
  exact ⟨_, _, nested, hinside, hnested, (List.sublist_cons_self _ _).trans hsub⟩

/-- **What is lowered at an occurrence of a fragment** is part of what is lowered, in
order. -/
theorem LowersFragments.exists_inside
    (h : LowersFragments pass registry around s s.fragments is) {outer : List OccurringFragment}
    {x : OccurringFragment} (hx : Stands registry (s.typed around.type) outer x) :
    ∃ (around' : Enclosing) (s' : Selected) (is' : List Interface),
      x.inside = s'.typed around'.type ∧
        LowersFragments pass registry around' s' s'.fragments is' ∧ is'.Sublist is := by
  generalize hs : s.typed around.type = start at hx
  induction hx generalizing around s is with
  | here hx => exact h.exists_nested (hs ▸ hx)
  | inside hx _ ih =>
    obtain ⟨around', s', is', hinside, hnested, hsub⟩ := h.exists_nested (hs ▸ hx)
    obtain ⟨around₂, s₂, is₂, hinside₂, hl, hsub₂⟩ := ih hnested hinside.symm
    exact ⟨around₂, s₂, is₂, hinside₂, hl, hsub₂.trans hsub⟩

/-- A definition that is entered inside of others. -/
def RegisteredFragment.entered (d : RegisteredFragment) (enclosing : List String) :
    EnteredFragment where
  typeCondition := d.typeCondition
  location := d.location
  name := some d.name
  selected := ⟨d.file, d.name :: enclosing, d.selections⟩

/-- A spread that is entered stands for a definition. -/
theorem enter_definition {position : Position} {name type : String} {directives : List Directive}
    {e : EnteredFragment}
    (h : enter registry s type ⟨position, directives, .definition name⟩ = .ok e) :
    ∃ d, registry.get? name = some d ∧ e = d.entered s.enclosing := by
  obtain ⟨_, _, ht, -⟩ | ⟨_, d, ht, hd, -, he⟩ := enter_eq_ok.1 h
  · cases ht
  · obtain rfl := FragmentTarget.definition.inj ht
    exact ⟨d, hd, he⟩

/-- **What a spread fragment is lowered to covers what it is lowered to on its own**, also
among other interfaces. -/
theorem LowersFragments.exists_alone
    (h : LowersFragments pass registry around s s.fragments is) {all : List Interface}
    (hall : is.Sublist all) {position : Position} {name : String} {directives : List Directive}
    (hs : .spread position name directives ∈ s.selections) (hn : ruledOut directives = false) :
    ∃ d, registry.get? name = some d ∧ (pass.schema.type? d.typeCondition).isSome ∧
      ∃ own fragments, LowersPlace pass registry (Builder.fragmentPlace d)
          (Selected.ofDefinition d) own fragments ∧
        (∃ i ∈ all, i.typeCondition = d.typeCondition ∧
          .ofRoot .fragment (capitalize name) ∈ i.keys ∧ CoversFields i.fields own) ∧
        CoversInterfaces (mergeInterfaces (mergeFields pass) all) (interfacesIn fragments) := by
  have hf : ⟨position, directives, .definition name⟩ ∈ s.fragments :=
    List.mem_filterMap.2 ⟨_, hs, rfl⟩
  obtain ⟨conditions, e, own, nested, -, he, ht, ho, hnested, hsub⟩ := h.entered_of_mem _ hf hn
  have hsub := hsub.trans hall
  obtain ⟨d, hd, rfl⟩ := enter_definition he
  obtain rfl : d.name = name := Registry.name_of_get? hd
  -- on its own it has one of the keys that it has here, and is inside of no other fragment
  have hroot : SelectionKey.ofRoot .fragment (capitalize d.name) ∈
      fragmentKeys around.keys (d.entered s.enclosing) := mem_fragmentKeys.2 (.inr ⟨_, rfl, rfl⟩)
  have hkeys : ∀ k ∈ (Builder.fragmentPlace d).keys,
      k ∈ fragmentKeys around.keys (d.entered s.enclosing) := by
    intro k hk
    obtain rfl := List.mem_singleton.1 hk
    exact hroot
  have henclosing : ∀ x ∈ (Selected.ofDefinition d).enclosing, x ∈ d.name :: s.enclosing :=
    fun x hx => absurd hx List.not_mem_nil
  obtain ⟨own', ho', hco⟩ := ho.narrow hkeys henclosing
  have hcover : CoversFields ((d.entered s.enclosing).lowered pass around conditions own).fields
      own' := ((enlarges_covers pass).grows.right _ own).trans hco
  have hnarrow : ((Builder.fragmentPlace d).enclosing pass own').Narrows
      ((d.entered s.enclosing).lowered pass around conditions own).enclosing :=
    ⟨rfl, hkeys, hcover, LowersFields.tidyFields ho'⟩
  obtain ⟨nested', hnested', htn, hcn⟩ := hnested.narrow hnarrow henclosing
  refine ⟨d, hd, ht, own', _, .intro ho' hnested', ?_, ?_⟩
  · exact ⟨_, hsub.subset List.mem_cons_self, rfl, hroot, hcover⟩
  · rw [interfacesIn_assemble]
    exact coversInterfaces_of_forall₂ htn hcn ((List.sublist_cons_self _ _).trans hsub)

end Lowering

/-! ## Fragments on their own -/

theorem coversFields_eraseFields (fs : List Field) : CoversFields fs (eraseFields fs) := by
  rw [eraseFields_eq_map]
  intro f' hf'
  obtain ⟨f, hf, rfl⟩ := List.mem_map.1 hf'
  exact ⟨f, hf, f.covers_erase⟩

theorem coversInterfaces_eraseFragments (gs : List Fragment) :
    CoversInterfaces (interfacesIn gs) (interfacesIn (eraseFragments gs)) := by
  rw [interfacesIn_eraseFragments]
  intro i' hi'
  obtain ⟨i, hi, rfl⟩ := List.mem_map.1 hi'
  refine ⟨i, hi, rfl, fun _ h => h, fun _ h => h, ?_⟩
  have hf := coversFields_eraseFields i.fields
  rwa [eraseFields_eq_map] at hf

namespace Builder

variable {b : Builder}

/-- A fragment is built if its type is defined and its selections can be lowered with
implementations. Then they can be lowered without, too. -/
theorem buildNamedFragment_of_lowered {d : RegisteredFragment}
    (ht : (b.schema.type? d.typeCondition).isSome) {fields : List Field} {fragments : List Fragment}
    (h : lowerPlace ⟨b.schema, true⟩ b.registry (fragmentPlace d) (Selected.ofDefinition d) =
      .ok (fields, fragments)) :
    ∃ nf, b.buildNamedFragment d = .ok nf := by
  have he :=
    lowerPlace_erase ⟨b.schema, true⟩ b.registry (fragmentPlace d) (Selected.ofDefinition d)
  rw [h] at he
  have hs : lowerSelectionSet ⟨b.schema, false⟩ b.registry (fragmentPlace d)
      (Selected.ofDefinition d) = .ok _ := lowerSelectionSet_eq_ok.2 ⟨_, _, he, rfl⟩
  have hd : lowerSelectionSet ⟨b.schema, true⟩ b.registry (fragmentPlace d)
      (Selected.ofDefinition d) = .ok _ := lowerSelectionSet_eq_ok.2 ⟨_, _, h, rfl⟩
  rw [buildNamedFragment, if_neg (by simpa using Option.ne_none_iff_isSome.2 ht)]
  exact ⟨_, Except.bind_eq_ok.2 ⟨_, hs, Except.bind_eq_ok.2 ⟨_, hd, rfl⟩⟩⟩

/-- **A fragment whose selections are lowered by either pass is built**, and what they
are lowered to covers its selection set. -/
theorem exists_namedFragment {pass : Pass} {d : RegisteredFragment} {fields : List Field}
    {fragments : List Fragment} (hp : pass.schema = b.schema)
    (ht : (b.schema.type? d.typeCondition).isSome)
    (h : LowersPlace pass b.registry (fragmentPlace d) (Selected.ofDefinition d) fields fragments) :
    ∃ nf, b.buildNamedFragment d = .ok nf ∧ CoversFields fields nf.selectionSet.fields ∧
      CoversInterfaces (interfacesIn fragments) (interfacesIn nf.selectionSet.fragments) := by
  have hl := lowersPlace_iff.1 h
  have he := lowerPlace_erase pass b.registry (fragmentPlace d) (Selected.ofDefinition d)
  rw [hl, Pass.erase, hp] at he
  -- with implementations they can be lowered as well, since both passes fail together
  obtain ⟨nf, hnf⟩ : ∃ nf, b.buildNamedFragment d = .ok nf := by
    have ha := lowerPlace_erase ⟨b.schema, true⟩ b.registry (fragmentPlace d)
      (Selected.ofDefinition d)
    rw [Pass.erase, he] at ha
    cases hd : lowerPlace ⟨b.schema, true⟩ b.registry (fragmentPlace d)
        (Selected.ofDefinition d) with
    | error e =>
      rw [hd] at ha
      cases ha
    | ok lowered => exact buildNamedFragment_of_lowered ht hd
  obtain ⟨set, -, hs, -, -, -, hset, -⟩ := sets_of_buildNamedFragment hnf
  obtain ⟨_, _, hl', rfl⟩ := lowerSelectionSet_eq_ok.1 hs
  obtain ⟨rfl, rfl⟩ := Prod.mk.inj (Except.ok.inj (he.symm.trans hl'))
  refine ⟨nf, hnf, ?_⟩
  rw [hset]
  exact ⟨coversFields_eraseFields _, coversInterfaces_eraseFragments _⟩

end Builder

/-! ## Built trees -/

/-- **A model realizes a fragment**: it has an interface on the fragment's type condition
that is reached under the fragment's name and covers all fields that the fragment has
when it is built on its own, and covers each of the interfaces that it has then. -/
def Builder.Realizes (b : Builder) (m : Model) (name : String) : Prop :=
  ∃ d nf, b.registry.get? name = some d ∧ b.buildNamedFragment d = .ok nf ∧
    (∃ i ∈ interfacesIn m.fragments, i.typeCondition = d.typeCondition ∧
      .ofRoot .fragment (capitalize name) ∈ i.keys ∧
      CoversFields i.fields nf.selectionSet.fields) ∧
    CoversInterfaces (interfacesIn m.fragments) (interfacesIn nf.selectionSet.fragments)

/-- Where selections stand behind a model, the model realizes the fragments they spread. -/
theorem Backed.realizes {b : Builder} {pass : Pass} (hp : pass.schema = b.schema) {m : Model}
    {s : TypedSelections} (h : Backed pass b.registry m s) {name : String}
    (hs : Spreads b.registry s name) : b.Realizes m name := by
  obtain ⟨place, below, fields, fragments, rfl, ⟨hf, hg⟩, -, hci⟩ := h
  rw [interfacesIn_assemble] at hci
  obtain ⟨v, hv, position, directives, hmem, hn⟩ := hs
  -- the spread stands in selections that were lowered at the place or inside of it
  obtain ⟨around, inner, is, rfl, hl, hsub⟩ : ∃ (around : Enclosing) (inner : Selected) (is : _),
      v = inner.typed around.type ∧
        LowersFragments pass b.registry around inner inner.fragments is ∧ is.Sublist _ := by
    rcases hv with rfl | ⟨_, o, ho, -, rfl⟩
    · exact ⟨_, below, _, rfl, hg, List.Sublist.refl _⟩
    · exact hg.exists_inside ho
  obtain ⟨d, hd, ht, own, alone, hla, ⟨i, hi, hti, hki, hfi⟩, hai⟩ :=
    hl.exists_alone hsub hmem hn
  rw [hp] at ht
  obtain ⟨nf, hnf, hcf, hcs⟩ := b.exists_namedFragment hp ht hla
  -- merging the interfaces at the place covers each of them, and so does the model
  obtain ⟨j, hj, hji⟩ := coversInterfaces_mergeInterfaces (enlarges_covers pass).grows _ i hi
  obtain ⟨l, hlm, hlj⟩ := hci j hj
  have hli := hlj.trans hji
  refine ⟨d, nf, hd, hnf, ⟨l, hlm, hli.typeCondition.trans hti, hli.keys _ hki, ?_⟩, ?_⟩
  · exact (hli.fields.trans hfi).trans hcf
  · exact (hci.trans hai).trans hcs

/-- Every spread in the selections behind the models of a tree is realized. -/
def Builder.AllRealized (b : Builder) (root : Model) (start : TypedSelections) : Prop :=
  ∀ m s, Behind b.schema b.registry root start m s → ∀ name, Spreads b.registry s name →
    b.Realizes m name

namespace Builder

variable {b : Builder}

theorem allRealized_of_backed {pass : Pass} (hp : pass.schema = b.schema) {root : Model}
    {start : TypedSelections} (ho : root.Orderly) (hr : Backed pass b.registry root start) :
    b.AllRealized root start := by
  intro m s hm name hs
  rw [← hp] at hm
  exact (hm.backed ho hr).2.realizes hp hs

/-- The selections of a place stand behind what they are lowered to. -/
theorem allRealized_of_lowersPlace {pass : Pass} (hp : pass.schema = b.schema) {place : Place}
    {s : Selected} {fields : List Field} {fragments : List Fragment}
    (h : LowersPlace pass b.registry place s fields fragments) :
    b.AllRealized ⟨place.type, fields, fragments⟩ (s.typed place.type) :=
  allRealized_of_backed hp h.orderly
    ⟨place, s, fields, fragments, rfl, h, .of_subset fun _ h => h, .of_subset fun _ h => h⟩

theorem allRealized_operation {d : Document} {o : OperationDefinition} {op : Operation}
    (h : b.buildOperation d o = .ok op) :
    b.AllRealized op.data.model ⟨op.rootType, o.selections⟩ := by
  obtain ⟨_, _, _, _, ht, hp, he⟩ := lowersPlace_data h
  rw [he, ← ht]
  exact allRealized_of_lowersPlace rfl hp

theorem allRealized_selectionSet {f : RegisteredFragment} {nf : NamedFragment}
    (h : b.buildNamedFragment f = .ok nf) :
    b.AllRealized nf.selectionSet.model ⟨f.typeCondition, f.selections⟩ := by
  obtain ⟨_, _, hp, he⟩ := lowersPlace_selectionSet h
  rw [he]
  exact allRealized_of_lowersPlace rfl hp

theorem allRealized_defaultSelectionSet {f : RegisteredFragment} {nf : NamedFragment}
    (h : b.buildNamedFragment f = .ok nf) :
    b.AllRealized nf.defaultSelectionSet.model ⟨f.typeCondition, f.selections⟩ := by
  obtain ⟨fields, fragments, _, hp, he⟩ := lowersPlace_defaultSelectionSet h
  rw [he, SelectionSet.model, SelectionSet.fields_withDerivedKeys,
    SelectionSet.fragments_withDerivedKeys]
  -- the additional keys leave all that was lowered covered
  refine allRealized_of_backed rfl (hp.orderly.withDerivedKeys _)
    ⟨fragmentPlace f, Selected.ofDefinition f, fields, fragments, rfl, hp, ?_, ?_⟩
  · exact fun c hc => ⟨_, List.mem_map_of_mem hc, c.covers_withDerivedKeys _⟩
  · rw [interfacesIn_withDerivedKeys]
    exact fun i hi => ⟨_, List.mem_map_of_mem hi, i.covers_withDerivedKeys _⟩

end Builder

/-- **Every spread realizes the interface of its fragment**, at every model of every
built tree: in the data field of an operation and in both selection sets of a fragment. -/
theorem spreads_realized (b : Builder) :
    (∀ (d : Document) (o : OperationDefinition) (op : Operation), b.buildOperation d o = .ok op →
      b.AllRealized op.data.model ⟨op.rootType, o.selections⟩) ∧
    (∀ (f : RegisteredFragment) (nf : NamedFragment), b.buildNamedFragment f = .ok nf →
      b.AllRealized nf.selectionSet.model ⟨f.typeCondition, f.selections⟩ ∧
        b.AllRealized nf.defaultSelectionSet.model ⟨f.typeCondition, f.selections⟩) := by
  constructor
  · intro d o op h
    exact Builder.allRealized_operation h
  · intro f nf h
    exact ⟨Builder.allRealized_selectionSet h, Builder.allRealized_defaultSelectionSet h⟩

/-- The field `node` of the sample, on which `F` is spread, realizes it. The fragment
itself is built, so its spreads are realized too. -/
theorem sample_spreads_realized :
    (∃ op, Sample.builder.buildOperation Sample.document Sample.operation = .ok op ∧
      ∃ node ∈ op.data.fields, node.responseName = "node" ∧
        Sample.builder.Realizes node.model "F") ∧
    (∃ nf, Sample.builder.buildNamedFragment Sample.fragment = .ok nf ∧
      Sample.builder.AllRealized nf.selectionSet.model
          ⟨Sample.fragment.typeCondition, Sample.fragment.selections⟩ ∧
        Sample.builder.AllRealized nf.defaultSelectionSet.model
          ⟨Sample.fragment.typeCondition, Sample.fragment.selections⟩) := by
  obtain ⟨op, hop, hroot, node, hnode, hname⟩ := Except.exists_of_any
    (x := Sample.builder.buildOperation Sample.document Sample.operation)
    (p := fun op => op.rootType = "Query" ∧ ∃ node ∈ op.data.fields, node.responseName = "node")
    (by decide +kernel)
  obtain ⟨nf, hnf⟩ := Sample.exists_namedFragment
  obtain ⟨ho, hf⟩ := spreads_realized Sample.builder
  refine ⟨⟨op, hop, node, hnode, hname, ?_⟩, ⟨nf, hnf, hf _ _ hnf⟩⟩
  -- behind the field stand the selections on it, as they are written
  have hbelow : TypedSelections.below? Sample.schema ⟨op.rootType, Sample.operation.selections⟩
      node.responseName = some ⟨"N", Sample.nodeSelections⟩ := by
    rw [hroot, hname]
    rfl
  refine ho _ _ _ hop _ _ (.own .root hnode hbelow) "F" ?_
  exact ⟨_, .inl rfl, ⟨1, 1⟩, [], List.mem_cons_self, rfl⟩

end SelectionModel
