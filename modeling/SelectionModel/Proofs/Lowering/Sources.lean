import SelectionModel.Proofs.Lowering.Occurrences
import SelectionModel.Proofs.Merging.Sources

/-!
# Lowering and sources

The selections at a place are the one source of what they are lowered to. A field is lowered
from those of its response name; an interface has, besides the fields around it, those along
the occurrence it stands for.

* `InterfaceFrom`: an interface is made from the sources around it and along its occurrence.
* `LowersPlace.modelFrom`: **what is lowered at a place is made from its selections.**
-/

namespace SelectionModel

theorem copiesIn_singleton (s : TypedSelections) (name : String) :
    copiesIn {s} name = {n | n ∈ s.group name} := by
  ext n
  simp [copiesIn]

theorem belowIn_singleton {schema : Schema} {s t : TypedSelections} {name : String}
    (h : s.below? schema name = some t) : belowIn schema {s} name = {t} := by
  ext u
  simp [belowIn, h, eq_comm]

/-- **An interface is made along an occurrence**: from the sources around it and from the
selections along the occurrence. -/
structure InterfaceFrom (schema : Schema) (registry : Registry) (around : Set TypedSelections)
    (o : Occurrence) (i : Interface) : Prop where
  typeCondition : i.typeCondition = o.type
  fields : FieldsFrom schema registry i.fields (around ∪ {v | v ∈ o.insides})

variable {pass : Pass} {registry : Registry} {A : Set TypedSelections}

/-! ## Fields -/

section Fields

variable {type : String} {keys : OrderedSet SelectionKey} {s : Selected} {fields : List Field}

/-- Lowered fields are made from the selections, if each of them is: no name is left out. -/
theorem LowersFields.fieldsFrom_of (h : LowersFields pass registry type keys s s.groups fields)
    (hmade : ∀ f ∈ fields, f.MadeFrom pass.schema registry
      (copiesIn {s.typed type} f.responseName)
      (belowIn pass.schema {s.typed type} f.responseName)) :
    FieldsFrom pass.schema registry fields {s.typed type} := by
  refine ⟨hmade, ?_⟩
  intro t ht name hn
  obtain rfl := Set.mem_singleton_iff.1 ht
  exact h.mem_names.2 hn

/-- **A field is made from the group it is lowered from.** -/
theorem FieldHead.madeFrom_lowered {g : Group String SelectedField} (hg : g ∈ s.groups)
    {conditions : List Condition} {first : SelectedField} {rest : List SelectedField}
    (hi : includedFields s.file g.members = .ok (conditions, first :: rest))
    {definition : FieldDefinition} (hd : pass.schema.field? type first.head.name = some definition)
    {place : Place} (hplace : place.type = definition.type.innermostName)
    {below : List Field} {fragments : List Fragment}
    (hbelow : ModelFrom pass.schema registry below fragments
      {(s.below ((first :: rest).flatMap SelectedField.selections)).typed place.type})
    (location : SourceLocation) (arguments : List Argument) (keys : OrderedSet SelectionKey) :
    (first.head.lowered definition location arguments conditions keys below fragments).MadeFrom
      pass.schema registry (copiesIn {s.typed type} first.head.responseName)
      (belowIn pass.schema {s.typed type} first.head.responseName) := by
  have hname : first.head.responseName = g.key :=
    ((mem_members_iff hg).1 (included_subset hi _ List.mem_cons_self)).2
  have hgroup : (s.typed type).group g.key = first :: rest := (included_eq_group hg hi type).symm
  have hunder : (s.typed type).below? pass.schema g.key =
      some ((s.below ((first :: rest).flatMap SelectedField.selections)).typed place.type) := by
    rw [TypedSelections.below?, hgroup, hplace]
    simp only [Selected.typed, hd, Option.map_some]
    rfl
  obtain ⟨hnodup, hmem⟩ := mem_conditions_of_includedFields hi
  rw [hname, Field.madeFrom_iff, belowIn_singleton hunder, copiesIn_singleton, hgroup]
  exact ⟨⟨hnodup, hmem, first, List.mem_cons_self⟩, hbelow⟩

end Fields

/-! ## Interfaces -/

/-- What is made in a fragment is made from what is around the fragment as well. -/
theorem InterfaceFrom.within {schema : Schema} {x : OccurringFragment} {o : Occurrence}
    {i : Interface} (h : InterfaceFrom schema registry (A ∪ {x.inside}) o i) :
    InterfaceFrom schema registry A (o.within x) i where
  typeCondition := h.typeCondition
  fields := by
    have hinsides : A ∪ {v | v ∈ (o.within x).insides} = A ∪ {x.inside} ∪ {v | v ∈ o.insides} := by
      ext v
      simp only [Occurrence.insides_within, Set.mem_union, Set.mem_ofPred_eq, Set.mem_singleton_iff,
        List.mem_cons, or_assoc]
    rw [hinsides]
    exact h.fields

/-- **What an interface is merged from** at a place is what it draws on. -/
theorem Walked.drawnOn_eq {start : TypedSelections} {typeCondition : String}
    {parts : List (Occurrence × Interface)}
    (h : Walked registry (InterfaceFrom pass.schema registry {start}) (start.occurring registry)
      parts)
    (hex : ∃ p ∈ parts, p.2.typeCondition = typeCondition) :
    drawnOn registry [typeCondition] {start} =
      {v | ∃ p ∈ parts, p.2.typeCondition = typeCondition ∧
        v ∈ ({start} ∪ {w | w ∈ p.1.insides} : Set TypedSelections)} := by
  ext v
  constructor
  · intro hv
    rcases mem_drawnOn.1 hv with hv | ⟨t, rfl, _, _, ⟨o, ho, rfl, rfl⟩, hty, hvp⟩
    · obtain ⟨p, hp, htc⟩ := hex
      exact ⟨p, hp, htc, .inl hv⟩
    · obtain ⟨p, hp, rfl⟩ := h.exists_part ho
      exact ⟨p, hp, (h.related p hp).typeCondition.trans (List.mem_singleton.1 hty), .inr hvp⟩
  · rintro ⟨p, hp, htc, hv | hv⟩
    · exact subset_drawnOn _ hv
    · have ho := h.preOrder.mem_iff.1 (List.mem_map_of_mem hp)
      have htype : p.1.type = typeCondition := (h.related p hp).typeCondition.symm.trans htc
      exact mem_drawnOn_of_occurs rfl ⟨p.1, ho, rfl, rfl⟩ (List.mem_singleton.2 htype) hv

/-- Fragments that are put together at a place are made from its selections. -/
theorem Walked.modelFrom {place : Place} {start : TypedSelections} {fields : List Field}
    {parts : List (Occurrence × Interface)}
    (hf : FieldsFrom pass.schema registry fields {start})
    (h : Walked registry (InterfaceFrom pass.schema registry {start}) (start.occurring registry)
      parts) :
    ModelFrom pass.schema registry fields
      (assemble pass (mergeFields pass) (mergeInterfaces (mergeFields pass) (parts.map Prod.snd))
        (place.site pass fields)) {start} := by
  have hmerge : MergesSources pass.schema registry (mergeFields pass) fun _ => True :=
    fun _ _ _ h => fieldsFrom_mergeFields pass h
  have hkeeps : Keeps (mergeFields pass) fun _ => True := fun _ _ _ _ => trivial
  have hinterfaces : ∀ j ∈ mergeInterfaces (mergeFields pass) (parts.map Prod.snd),
      FieldsFrom pass.schema registry j.fields
        (drawnOn registry [j.typeCondition] {start}) := by
    intro j hj
    let sources := parts.map fun p => (p.2, ({start} ∪ {v | v ∈ p.1.insides} : Set _))
    have hfst : sources.map Prod.fst = parts.map Prod.snd := by
      rw [List.map_map]
      rfl
    have hmade : ∀ p ∈ sources, FieldsFrom pass.schema registry p.1.fields p.2 := by
      intro p hp
      obtain ⟨q, hq, rfl⟩ := List.mem_map.1 hp
      exact (h.related q hq).fields
    have hex : ∃ p ∈ parts, p.2.typeCondition = j.typeCondition := by
      have hkey := List.mem_map_of_mem (f := Interface.typeCondition) hj
      rw [typeConditions_mergeInterfaces, mem_keys_groupBy, List.map_map] at hkey
      exact List.mem_map.1 hkey
    have hmerged := fieldsFrom_mergeInterfaces hmerge hkeeps (fun _ _ _ _ => trivial) hmade
      (hfst ▸ hj)
    have hsources : {v | ∃ p ∈ sources, p.1.typeCondition = j.typeCondition ∧ v ∈ p.2} =
        drawnOn registry [j.typeCondition] {start} := by
      rw [h.drawnOn_eq hex]
      ext v
      simp only [sources, Set.mem_ofPred_eq, List.mem_map, exists_exists_and_eq_and]
    rw [← hsources]
    exact hmerged
  refine ⟨hf, ?_, ?_⟩
  · exact fieldsFrom_assemble (place.site pass fields) hmerge hf hinterfaces
      (fun _ _ => trivial) (fun _ _ _ _ => trivial)
  · rintro t rfl - - ⟨o, ho, rfl, rfl⟩
    obtain ⟨p, hp, rfl⟩ := h.exists_part ho
    obtain ⟨j, hj, hjt⟩ := exists_mergeInterfaces (mergeFields pass)
      (List.mem_map_of_mem (f := Prod.snd) hp)
    rw [interfacesIn_assemble]
    exact ⟨j, hj, hjt.trans (h.related p hp).typeCondition⟩

/-- The interface of a fragment is made from what is around the fragment and in it. -/
theorem EnteredFragment.fieldsFrom_lowered (e : EnteredFragment) {around : Enclosing}
    (conditions : List Condition) {own : List Field}
    (hA : FieldsFrom pass.schema registry around.fields A)
    (hown : FieldsFrom pass.schema registry own {e.selected.typed e.typeCondition}) :
    FieldsFrom pass.schema registry (e.lowered pass around conditions own).fields
      (A ∪ {e.selected.typed e.typeCondition}) :=
  fieldsFrom_mergeFields pass ((hA.inherit _).gathered.append hown.gathered)

/-! ## The rules -/

mutual

/-- **What is lowered at a place is made from its selections.** -/
theorem LowersPlace.modelFrom {place : Place} {s : Selected} {fields : List Field}
    {fragments : List Fragment} :
    LowersPlace pass registry place s fields fragments →
      ModelFrom pass.schema registry fields fragments {s.typed place.type}
  | .intro hf hi => by
    have hfields := hf.fieldsFrom_of (LowersFields.madeFrom hf fun _ hg => hg)
    obtain ⟨parts, rfl, hparts⟩ := LowersFragments.exists_made hi _ hfields
    exact hparts.modelFrom hfields

/-- Lowered fields are made from their groups. -/
theorem LowersFields.madeFrom {type : String} {keys : OrderedSet SelectionKey} {s : Selected}
    {gs : List (Group String SelectedField)} {fields : List Field} :
    LowersFields pass registry type keys s gs fields → (∀ g ∈ gs, g ∈ s.groups) →
      ∀ f ∈ fields, f.MadeFrom pass.schema registry (copiesIn {s.typed type} f.responseName)
        (belowIn pass.schema {s.typed type} f.responseName)
  | .nil, _ => by simp
  | .excluded _ hr, hg => LowersFields.madeFrom hr fun g h => hg g (List.mem_cons_of_mem _ h)
  | .field hi hd _ hb hr, hg => by
    have hbelow := LowersPlace.modelFrom hb
    have hrest := LowersFields.madeFrom hr fun g h => hg g (List.mem_cons_of_mem _ h)
    intro f hf
    rcases List.mem_cons.1 hf with rfl | hf
    · exact FieldHead.madeFrom_lowered (hg _ List.mem_cons_self) hi hd rfl hbelow _ _ _
    · exact hrest f hf

/-- Lowered interfaces are made along the occurrences of the fragments. -/
theorem LowersFragments.exists_made {around : Enclosing} {s : Selected}
    {fs : List SelectedFragment} {is : List Interface} :
    LowersFragments pass registry around s fs is →
      ∀ A, FieldsFrom pass.schema registry around.fields A →
      ∃ parts, parts.map Prod.snd = is ∧ Walked registry (InterfaceFrom pass.schema registry A)
        (occurringAmong registry around.type fs) parts
  | .nil => fun _ _ => ⟨[], rfl, .nil⟩
  | .excluded hn hr => by
    rw [occurringAmong_of_never hn]
    exact LowersFragments.exists_made hr
  | @LowersFragments.entered _ _ _ _ _ _ _ conditions e own _ hi he _ ho hn hr => by
    intro A hA
    have hown := ho.fieldsFrom_of (LowersFields.madeFrom ho fun _ hg => hg)
    have hfields := e.fieldsFrom_lowered conditions hA hown
    obtain ⟨nested, hnestedIs, hnested⟩ := LowersFragments.exists_made hn _ hfields
    obtain ⟨rest, hrestIs, hrest⟩ := LowersFragments.exists_made hr A hA
    rw [occurringAmong_of_enter hi he]
    exact ⟨_, Walked.snd_entered hnestedIs hrestIs,
      .entered ⟨rfl, by simpa using hfields⟩ (fun _ _ hj => hj.within) hnested hrest⟩

end

end SelectionModel
