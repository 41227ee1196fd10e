import SelectionModel.Proofs.Lowering.Built
import SelectionModel.Proofs.Lowering.Invariant
import SelectionModel.Proofs.Lowering.Occurrences
import SelectionModel.Proofs.Merging.Covering
import SelectionModel.Proofs.Sample

/-!
# The paths of selection keys

A field is reached by going on from where its selection is reached, or one of the
interfaces of its selection. Its keys take the steps of a key of these and then one to
the field. When fields are inherited, a step to a type condition is put in after whatever
start their keys have in common with a key of the selection, and merging has interfaces
inherit again, also those that stand deeper. So further steps get in between, and the
path without the last one need not be a key of anything. No step is ever left out.

* `SelectionKey.Continues`: a key goes on from another one to a field.
* `keysContinue_assemble`, `keysContinue_mergeFieldPair`: fragments that are put
  together, and merged pairs.
* `LowersPlace.keysContinue`: lowered selections.
* `keys_continue`: **the keys at every depth of every built tree.**
* `sample_invented_path`: a key that is no key of the selection and one step.
-/

namespace SelectionModel

/-! ## Keys that go on -/

/-- **A key goes on from another one to a field**: from the same root it takes the steps
of the other in order, then one to the field, with others perhaps in between. -/
structure SelectionKey.Continues (k start : SelectionKey) (name : String) : Prop where
  scope : k.scope = start.scope
  root : k.root = start.root
  path : (start.path ++ [capitalize name]).Sublist k.path

theorem SelectionKey.continues_child (k : SelectionKey) (name : String) :
    (k.child (capitalize name)).Continues k name :=
  ⟨rfl, rfl, .refl _⟩

/-- A step is put into a key after the start that it shares with another one. -/
theorem SelectionKey.rebase?_child {k start l : SelectionKey} {step : String}
    (h : k.rebase? start (start.child step) = some l) :
    ∃ rest, k = { start with path := start.path ++ rest } ∧
      l = { start with path := start.path ++ step :: rest } := by
  rw [rebase?] at h
  split at h
  next hs =>
    obtain ⟨hscope, rest, hr⟩ := startsWith_iff.1 hs
    obtain ⟨hroot, hpath⟩ := List.cons.inj hr
    refine ⟨rest, by cases k; simp_all, ?_⟩
    rw [← Option.some.inj h, hr, List.drop_left]
    simp [child]
  · cases h

/-- A step that is put into a key leaves what it continues. -/
theorem SelectionKey.Continues.of_rebaseKey {keys : OrderedSet SelectionKey}
    {typeCondition name : String} {k l start : SelectionKey} (h : k.Continues start name)
    (hl : l ∈ rebaseKey (rebasedKeys keys typeCondition) k) : l.Continues start name := by
  obtain ⟨shared, -, hl⟩ := mem_rebaseKey.1 hl
  obtain ⟨rest, rfl, rfl⟩ := rebase?_child hl
  refine ⟨h.scope, h.root, h.path.trans ?_⟩
  exact (List.Sublist.refl _).append (List.sublist_cons_self _ _)

/-- The keys of some fields go on from keys with a property. -/
def KeysFrom (P : SelectionKey → Prop) (fs : List Field) : Prop :=
  ∀ f ∈ fs, ∀ k ∈ f.keys, ∃ start, P start ∧ k.Continues start f.responseName

section KeysFrom

variable {P Q : SelectionKey → Prop} {fs gs : List Field} {pass : Pass}

theorem KeysFrom.mono (h : KeysFrom P fs) (hpq : ∀ k, P k → Q k) : KeysFrom Q fs := by
  intro f hf k hk
  obtain ⟨start, hs, hc⟩ := h f hf k hk
  exact ⟨start, hpq start hs, hc⟩

theorem KeysFrom.append (hf : KeysFrom P fs) (hg : KeysFrom P gs) : KeysFrom P (fs ++ gs) :=
  List.forall_mem_append.2 ⟨hf, hg⟩

/-- **Merged fields have the keys of what they are merged from.** -/
theorem exists_key_of_mem_mergeFields {g : Field} (hg : g ∈ mergeFields pass fs) {k : SelectionKey}
    (hk : k ∈ g.keys) : ∃ f ∈ fs, f.responseName = g.responseName ∧ k ∈ f.keys := by
  rw [mergeFields_eq] at hg
  obtain ⟨group, hgroup, rfl⟩ := List.mem_map.1 hg
  obtain ⟨f, hf, hk⟩ := (foldl_iff_exists (p := fun f : Field => k ∈ f.keys)
    (fun a b => OrderedSet.mem_union) _ _).1 hk
  obtain ⟨hfs, he⟩ := (mem_members_iff hgroup).1 hf
  refine ⟨f, hfs, ?_, hk⟩
  rw [responseName_foldl, he]
  exact ((mem_members_iff hgroup).1 List.mem_cons_self).2.symm

theorem KeysFrom.mergeFields (h : KeysFrom P fs) : KeysFrom P (mergeFields pass fs) := by
  intro g hg k hk
  obtain ⟨f, hf, he, hk⟩ := exists_key_of_mem_mergeFields hg hk
  rw [← he]
  exact h f hf k hk

theorem KeysFrom.inheritFields (h : KeysFrom P fs) (keys : OrderedSet SelectionKey)
    (typeCondition : String) :
    KeysFrom P (inheritFields fs (rebasedKeys keys typeCondition)) := by
  rw [inheritFields_eq_map]
  intro g hg k hk
  obtain ⟨f, hf, rfl⟩ := List.mem_map.1 hg
  rw [Field.keys_withDerivedKeys, mem_deriveKeys] at hk
  rw [Field.responseName_withDerivedKeys]
  rcases hk with hk | ⟨l, hl, hk⟩
  · exact h f hf k hk
  · obtain ⟨start, hs, hc⟩ := h f hf l hl
    exact ⟨start, hs, hc.of_rebaseKey hk⟩

end KeysFrom

/-! ## Fragments -/

/-- A key of a selection, or of an interface of it. -/
def IsStart (keys : OrderedSet SelectionKey) (is : List Interface) (k : SelectionKey) : Prop :=
  k ∈ keys ∨ ∃ i ∈ is, k ∈ i.keys

theorem IsStart.mono {keys keys' : OrderedSet SelectionKey} {is js : List Interface}
    {k : SelectionKey} (hk : ∀ l ∈ keys, l ∈ keys') (hi : CoversInterfaces js is)
    (h : IsStart keys is k) : IsStart keys' js k := by
  refine h.imp (hk k) fun ⟨i, his, hki⟩ => ?_
  obtain ⟨j, hjs, hji⟩ := hi i his
  exact ⟨j, hjs, hji.keys k hki⟩

/-- **The keys of the fields of a selection go on from those of the selection**, and in
its fragments from those of its interfaces as well. -/
structure KeysContinue (keys : OrderedSet SelectionKey) (fields : List Field)
    (fragments : List Fragment) : Prop where
  own : KeysFrom (· ∈ keys) fields
  fragment : ∀ g ∈ fragments, KeysFrom (IsStart keys (interfacesIn fragments)) g.fields

/-- The keys right below a field go on from those of the field and of its interfaces. -/
def Field.KeysContinue (f : Field) : Prop :=
  SelectionModel.KeysContinue f.keys f.fields f.fragments

section Fragments

variable {pass : Pass} {is : List Interface} {P : SelectionKey → Prop}

theorem keysFrom_mergeInterfaces (h : ∀ i ∈ is, KeysFrom P i.fields) :
    ∀ i ∈ mergeInterfaces (mergeFields pass) is, KeysFrom P i.fields :=
  mergeInterfaces_forall (p := fun i => KeysFrom P i.fields)
    (fun _ _ ha hb => (ha.append hb).mergeFields) h

/-- **Fragments that are put together**: an implementation has fields of the site and of
interfaces. -/
theorem keysContinue_assemble (site : Site) (hs : KeysFrom (· ∈ site.keys) site.fields)
    (hi : ∀ i ∈ is, KeysFrom (IsStart site.keys is) i.fields) :
    KeysContinue site.keys site.fields (assemble pass (mergeFields pass) is site) where
  own := hs
  fragment := by
    rw [interfacesIn_assemble]
    intro g hg
    rcases mem_assemble hg with ⟨i, h, rfl⟩ | ⟨m, h, rfl⟩
    · exact hi i h
    · obtain ⟨type, ht⟩ := possibleTypes_ne_nil h
      obtain ⟨-, _, rfl⟩ := eq_implementationOf h ht
      refine ((hs.mono fun _ => .inl).append fun f hf => ?_).mergeFields
      obtain ⟨i, hmem, hf⟩ := List.mem_flatMap.1 hf
      exact hi i (mem_satisfiedBy.1 hmem).1 f hf

/-- Fragments go on from the keys of any selection that has more of them. -/
theorem KeysContinue.fragment_mono {keys keys' : OrderedSet SelectionKey} {fields : List Field}
    {fragments : List Fragment} (h : KeysContinue keys fields fragments)
    (hk : ∀ k ∈ keys, k ∈ keys') (hi : CoversInterfaces is (interfacesIn fragments)) :
    ∀ g ∈ fragments, KeysFrom (IsStart keys' is) g.fields :=
  fun g hg => (h.fragment g hg).mono fun _ hs => hs.mono hk hi

/-- **Inherited fields** have the keys they had, and those with a step put in. -/
theorem keptByInheritance_keysContinue : KeptByInheritance Field.KeysContinue := by
  intro keys typeCondition f h
  have hk : ∀ k ∈ f.keys, k ∈ deriveKeys (rebaseKey (rebasedKeys keys typeCondition)) f.keys :=
    fun _ hk => mem_deriveKeys.2 (.inl hk)
  rw [Field.KeysContinue, Field.keys_withDerivedKeys, Field.fields_withDerivedKeys,
    Field.fragments_withDerivedKeys]
  constructor
  · rw [← inheritFields_eq_map]
    exact (h.own.mono hk).inheritFields keys typeCondition
  · rw [interfacesIn_withDerivedKeys]
    intro g' hg'
    obtain ⟨g, hg, rfl⟩ := List.mem_map.1 hg'
    rw [Fragment.fields_withDerivedKeys, ← inheritFields_eq_map]
    refine (h.fragment_mono hk (fun i hi => ?_) g hg).inheritFields keys typeCondition
    exact ⟨_, List.mem_map_of_mem hi, i.covers_withDerivedKeys _⟩

/-- **Merged pairs** have the keys of both, so what goes on from one of the two goes on
from the pair. -/
theorem keysContinue_mergeFieldPair {a b : Field} (ha : a.KeysContinue) (hb : b.KeysContinue) :
    (mergeFieldPair pass (mergeFields pass) a b).KeysContinue := by
  have hm := (enlarges_covers pass).grows
  have hown : KeysFrom (· ∈ a.keys.union b.keys) (mergeFields pass (a.fields ++ b.fields)) := by
    refine (KeysFrom.append ?_ ?_).mergeFields
    · exact ha.own.mono fun _ hk => OrderedSet.mem_union.2 (.inl hk)
    · exact hb.own.mono fun _ hk => OrderedSet.mem_union.2 (.inr hk)
  have hcovers := coversInterfaces_pairInterfaces hm a b
  rw [interfacesIn_append] at hcovers
  have hinterfaces : ∀ i ∈ interfacesIn (a.fragments ++ b.fragments),
      KeysFrom (IsStart (a.keys.union b.keys) (pairInterfaces (mergeFields pass) a b))
        i.fields := by
    intro i hi
    rcases List.mem_append.1 (mem_interfacesIn.1 hi) with h | h
    · refine ha.fragment_mono (fun k hk => OrderedSet.mem_union.2 (.inl hk)) ?_ _ h
      exact hcovers.trans (.of_subset fun j hj => List.mem_append_left _ hj)
    · refine hb.fragment_mono (fun k hk => OrderedSet.mem_union.2 (.inr hk)) ?_ _ h
      exact hcovers.trans (.of_subset fun j hj => List.mem_append_right _ hj)
  refine keysContinue_assemble (pairSite pass (mergeFields pass) a b) hown fun i hi => ?_
  obtain ⟨j, hj, rfl⟩ := List.mem_map.1 hi
  have hj := keysFrom_mergeInterfaces hinterfaces j hj
  exact (((hown.mono fun _ => .inl).inheritFields _ _).append hj).mergeFields

end Fragments

/-! ## Lowered selections -/

section Lowering

variable {pass : Pass} {registry : Registry}

/-- A lowered field is one step from its selection. -/
theorem LowersFields.keysFrom {type : String} {keys : OrderedSet SelectionKey} {s : Selected}
    {gs : List (Group String SelectedField)} {fields : List Field} :
    LowersFields pass registry type keys s gs fields → (∀ g ∈ gs, g ∈ s.groups) →
      KeysFrom (· ∈ keys) fields
  | .nil, _ => fun _ hf => absurd hf List.not_mem_nil
  | .excluded _ hr, hg => keysFrom hr fun g h => hg g (List.mem_cons_of_mem _ h)
  | .field hi _ _ _ hr, hg => by
    have hf := included_subset hi _ List.mem_cons_self
    refine List.forall_mem_cons.2
      ⟨fun k hk => ?_, keysFrom hr fun g h => hg g (List.mem_cons_of_mem _ h)⟩
    obtain ⟨start, hs, rfl⟩ := OrderedSet.mem_map.1 hk
    rw [FieldHead.responseName_lowered, ((mem_members_iff (hg _ List.mem_cons_self)).1 hf).2]
    exact ⟨start, hs, start.continues_child _⟩

/-- The fields of an entered fragment go on from where those around it do, or from the
keys of the fragment. -/
theorem keysFrom_entered (pass : Pass) {P : SelectionKey → Prop} {around : Enclosing}
    {e : EnteredFragment} {own : List Field} (ha : KeysFrom P around.fields)
    (ho : KeysFrom (· ∈ fragmentKeys around.keys e) own) :
    KeysFrom (fun k => P k ∨ k ∈ fragmentKeys around.keys e)
      (mergeFields pass
        (inheritFields around.fields (rebasedKeys around.keys e.typeCondition) ++ own)) := by
  refine (KeysFrom.append ?_ (ho.mono fun _ => .inr)).mergeFields
  exact (ha.inheritFields around.keys e.typeCondition).mono fun _ => .inl

/-- The fields of lowered interfaces go on from where those around them do, or from one
of these interfaces. -/
theorem LowersFragments.keysFrom {P : SelectionKey → Prop} {around : Enclosing} {s : Selected}
    {fs : List SelectedFragment} {is : List Interface} :
    LowersFragments pass registry around s fs is → KeysFrom P around.fields →
      ∀ i ∈ is, KeysFrom (fun k => P k ∨ ∃ j ∈ is, k ∈ j.keys) i.fields
  | .nil, _ => fun _ hi => absurd hi List.not_mem_nil
  | .excluded _ hr, ha => keysFrom hr ha
  | .entered (e := e) _ _ _ ho hn hr, ha => by
    have hl := keysFrom_entered pass ha (ho.keysFrom fun _ hg => hg)
    intro i hi
    rcases List.mem_append.1 hi with hi | hi
    · rcases List.mem_cons.1 hi with rfl | hi
      · exact hl.mono fun k hk => hk.imp_right fun hk => ⟨_, List.mem_cons_self, hk⟩
      -- in the fragment, the interface of the fragment is one of those around
      · have hnested := keysFrom (P := fun k => P k ∨ k ∈ fragmentKeys around.keys e) hn hl
        refine (hnested i hi).mono fun k hk => ?_
        rcases hk with (hk | hk) | ⟨j, hj, hk⟩
        · exact .inl hk
        · exact .inr ⟨_, List.mem_cons_self, hk⟩
        · exact .inr ⟨j, List.mem_append_left _ (List.mem_cons_of_mem _ hj), hk⟩
    · refine (keysFrom hr ha i hi).mono fun k hk => hk.imp_right fun ⟨j, hj, hk⟩ => ?_
      exact ⟨j, List.mem_append_right _ hj, hk⟩

/-- **The keys at a place** go on from its own and from those of its interfaces. -/
theorem LowersPlace.keysContinue {place : Place} {s : Selected} {fields : List Field}
    {fragments : List Fragment} (h : LowersPlace pass registry place s fields fragments) :
    KeysContinue place.keys fields fragments := by
  obtain ⟨hf, hg⟩ := h
  have hown := hf.keysFrom fun _ hg => hg
  refine keysContinue_assemble (place.site pass fields) hown (keysFrom_mergeInterfaces ?_)
  have hm := coversInterfaces_mergeInterfaces (enlarges_covers pass).grows
  exact fun i hi => (hg.keysFrom hown i hi).mono fun _ hk => IsStart.mono (fun _ h => h) (hm _) hk

/-- **The keys below every merged or lowered field** go on from its own. -/
theorem keysContinue_invariant :
    FieldInvariant pass registry (Field.Everywhere Field.KeysContinue) :=
  .everywhere keptByInheritance_keysContinue (fun _ _ => keysContinue_mergeFieldPair)
    fun hl => hl.keysContinue

end Lowering

/-! ## Definitions -/

/-- The keys right below a selection set go on from its own and from those of its
interfaces, and so does everything below. -/
def SelectionSet.KeysContinue (s : SelectionSet) : Prop :=
  SelectionModel.KeysContinue s.keys s.fields s.fragments ∧
    ∀ f ∈ s.subfields, f.Everywhere Field.KeysContinue

namespace Builder

variable {b : Builder}

theorem data_keysContinue {d : Document} {o : OperationDefinition} {op : Operation}
    (h : b.buildOperation d o = .ok op) : op.data.Everywhere Field.KeysContinue := by
  obtain ⟨_, _, _, _, -, hp, he⟩ := lowersPlace_data h
  rw [he, Field.everywhere_iff]
  exact ⟨hp.keysContinue, keysContinue_invariant.forall_subfields hp⟩

theorem selectionSet_keysContinue {f : RegisteredFragment} {nf : NamedFragment}
    (h : b.buildNamedFragment f = .ok nf) : nf.selectionSet.KeysContinue := by
  obtain ⟨_, _, hp, he⟩ := lowersPlace_selectionSet h
  rw [he]
  exact ⟨hp.keysContinue, keysContinue_invariant.forall_subfields hp⟩

end Builder

/-- **Selection keys go on from those of their selection in every built tree**: in the
data field of an operation and in the selection set of a fragment, at any depth. -/
theorem keys_continue (b : Builder) :
    (∀ (d : Document) (o : OperationDefinition) (op : Operation), b.buildOperation d o = .ok op →
      op.data.Everywhere Field.KeysContinue) ∧
    (∀ (f : RegisteredFragment) (nf : NamedFragment), b.buildNamedFragment f = .ok nf →
      nf.selectionSet.KeysContinue) := by
  constructor
  · intro d o op h
    exact Builder.data_keysContinue h
  · intro f nf h
    exact Builder.selectionSet_keysContinue h

/-- The operation and the fragment of the sample are built, so this holds of them. -/
theorem sample_keys_continue :
    (∃ op, Sample.builder.buildOperation Sample.document Sample.operation = .ok op ∧
      op.data.Everywhere Field.KeysContinue) ∧
    (∃ nf, Sample.builder.buildNamedFragment Sample.fragment = .ok nf ∧
      nf.selectionSet.KeysContinue) := by
  obtain ⟨op, hop⟩ := Sample.exists_operation
  obtain ⟨nf, hnf⟩ := Sample.exists_namedFragment
  obtain ⟨ho, hf⟩ := keys_continue Sample.builder
  exact ⟨⟨op, hop, ho _ _ _ hop⟩, ⟨nf, hnf, hf _ _ hnf⟩⟩

/-- A key that goes on from none by a single step: `G` is merged with its second spread,
and the interface on `A`, which stands in the one on `N`, inherits `id` once more. -/
theorem sample_invented_path :
    ∃ op, Sample.nestedBuilder.buildOperation Sample.twiceDocument Sample.twice = .ok op ∧
      ∃ f : Field, f.IsIn op.data ∧ ∃ g ∈ f.fragments, ∃ c ∈ g.fields, ∃ k ∈ c.keys,
        ∀ start, IsStart f.keys (interfacesIn f.fragments) start →
          start.child (capitalize c.responseName) ≠ k := by
  obtain ⟨op, hop, f, hf, g, hg, c, hc, k, hk, hown, hinterfaces⟩ := Except.exists_of_any
    (x := Sample.nestedBuilder.buildOperation Sample.twiceDocument Sample.twice)
    (p := fun op => ∃ f ∈ op.data.subfields, ∃ g ∈ f.fragments, ∃ c ∈ g.fields,
      ∃ k ∈ c.keys.toList, (∀ l ∈ f.keys.toList, l.child (capitalize c.responseName) ≠ k) ∧
        ∀ i ∈ interfacesIn f.fragments, ∀ l ∈ i.keys.toList,
          l.child (capitalize c.responseName) ≠ k) (by decide +kernel)
  refine ⟨op, hop, f, .under hf .root, g, hg, c, hc, k, hk, fun start hs => ?_⟩
  rcases hs with hs | ⟨i, hi, hs⟩
  · exact hown start hs
  · exact hinterfaces i hi start hs

end SelectionModel
