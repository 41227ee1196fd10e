import SelectionModel.Proofs.Collection.Sources
import SelectionModel.Proofs.Merging.Depth

/-!
# Merging and sources

Fields that are made from some sources each are merged to fields that are made from all of
them: the copies of a merged field are those of the fields it is merged from, and so are the
sources below it.

* `Field.MadeFrom`: a field is made from its copies, and what is below it from what is below
  them.
* `Gathered`: fields that come from parts of some sources and together from all of them.
* `fieldsFrom_mergeFields`: **merging gathered fields makes fields from all sources.**
-/

namespace SelectionModel

/-! ## Made from sources -/

/-- Fields have all response names of their sources. -/
def HasNames (fields : List Field) (sources : Set TypedSelections) : Prop :=
  ∀ s ∈ sources, ∀ name, s.Selects name → name ∈ fields.map Field.responseName

/-- Each occurrence of a fragment in the sources has an interface on its type condition. -/
def HasInterfaces (registry : Registry) (fragments : List Fragment)
    (sources : Set TypedSelections) : Prop :=
  ∀ s ∈ sources, ∀ path u, Occurs registry s path u →
    ∃ i ∈ interfacesIn fragments, i.typeCondition = u.type

section Made

variable (schema : Schema) (registry : Registry)

/-- **A field is made from copies**, with the sources of the model below it. -/
inductive Field.MadeFrom : Field → Set SelectedField → Set TypedSelections → Prop where
  | intro {f : Field} {copies : Set SelectedField} {sources : Set TypedSelections} :
    f.SaysAll copies →
    (∀ c ∈ f.fields, Field.MadeFrom c (copiesIn sources c.responseName)
      (belowIn schema sources c.responseName)) →
    HasNames f.fields sources →
    (∀ g ∈ f.fragments, ∀ c ∈ g.fields, Field.MadeFrom c
      (copiesIn (drawnOn registry g.typeConditions sources) c.responseName)
      (belowIn schema (drawnOn registry g.typeConditions sources) c.responseName)) →
    (∀ g ∈ f.fragments, HasNames g.fields (drawnOn registry g.typeConditions sources)) →
    HasInterfaces registry f.fragments sources → Field.MadeFrom f copies sources

/-- Fields are made from sources, one for each response name that stands there. -/
structure FieldsFrom (fields : List Field) (sources : Set TypedSelections) : Prop where
  made : ∀ c ∈ fields, c.MadeFrom schema registry (copiesIn sources c.responseName)
    (belowIn schema sources c.responseName)
  names : HasNames fields sources

/-- **Fields and fragments are made from sources.** -/
structure ModelFrom (fields : List Field) (fragments : List Fragment)
    (sources : Set TypedSelections) : Prop where
  own : FieldsFrom schema registry fields sources
  fragment : ∀ g ∈ fragments,
    FieldsFrom schema registry g.fields (drawnOn registry g.typeConditions sources)
  interfaces : HasInterfaces registry fragments sources

/-- **Fields are gathered from sources**: each of them is made from a part, and no response
name of a source is left out. -/
def Gathered (fields : List Field) (sources : Set TypedSelections) : Prop :=
  ∃ parts : List (Field × Set TypedSelections), parts.map Prod.fst = fields ∧
    (∀ p ∈ parts, p.2 ⊆ sources ∧ p.1.MadeFrom schema registry
      (copiesIn p.2 p.1.responseName) (belowIn schema p.2 p.1.responseName)) ∧
    ∀ s ∈ sources, ∀ name, s.Selects name → ∃ p ∈ parts, p.1.responseName = name ∧ s ∈ p.2

end Made

variable {schema : Schema} {registry : Registry} {A B : Set TypedSelections}
  {fs gs : List Field}

theorem Field.madeFrom_iff {f : Field} {copies : Set SelectedField} :
    f.MadeFrom schema registry copies A ↔
      f.SaysAll copies ∧ ModelFrom schema registry f.fields f.fragments A := by
  constructor
  · rintro ⟨hall, hfields, hnames, hinner, hinnerNames, hinterfaces⟩
    exact ⟨hall, ⟨hfields, hnames⟩, fun g hg => ⟨hinner g hg, hinnerNames g hg⟩, hinterfaces⟩
  · rintro ⟨hall, ⟨hfields, hnames⟩, hinner, hinterfaces⟩
    exact .intro hall hfields hnames (fun g hg => (hinner g hg).made)
      (fun g hg => (hinner g hg).names) hinterfaces

/-! ## Gathered fields -/

theorem FieldsFrom.gathered (h : FieldsFrom schema registry fs A) :
    Gathered schema registry fs A := by
  refine ⟨fs.map fun f => (f, A), by simp [Function.comp_def], ?_, ?_⟩
  · intro p hp
    obtain ⟨f, hf, rfl⟩ := List.mem_map.1 hp
    exact ⟨subset_rfl, h.made f hf⟩
  · intro s hs name hn
    obtain ⟨f, hf, hname⟩ := List.mem_map.1 (h.names s hs name hn)
    exact ⟨(f, A), List.mem_map_of_mem hf, hname, hs⟩

theorem Gathered.append (h : Gathered schema registry fs A) (h' : Gathered schema registry gs B) :
    Gathered schema registry (fs ++ gs) (A ∪ B) := by
  obtain ⟨parts, rfl, hmade, hall⟩ := h
  obtain ⟨parts', rfl, hmade', hall'⟩ := h'
  refine ⟨parts ++ parts', List.map_append, ?_, ?_⟩
  · intro p hp
    rcases List.mem_append.1 hp with hp | hp
    · obtain ⟨hsub, hp⟩ := hmade p hp
      exact ⟨hsub.trans Set.subset_union_left, hp⟩
    · obtain ⟨hsub, hp⟩ := hmade' p hp
      exact ⟨hsub.trans Set.subset_union_right, hp⟩
  · rintro s (hs | hs) name hn
    · obtain ⟨p, hp, h⟩ := hall s hs name hn
      exact ⟨p, List.mem_append_left parts' hp, h⟩
    · obtain ⟨p, hp, h⟩ := hall' s hs name hn
      exact ⟨p, List.mem_append_right parts hp, h⟩

theorem gathered_nil : Gathered schema registry [] ∅ :=
  ⟨[], rfl, by simp, by simp⟩

/-- Fields that are gathered list by list. -/
theorem gathered_flatMap {α : Type} {l : List α} {fields : α → List Field}
    {sources : α → Set TypedSelections}
    (h : ∀ a ∈ l, Gathered schema registry (fields a) (sources a)) :
    Gathered schema registry (l.flatMap fields) {s | ∃ a ∈ l, s ∈ sources a} := by
  induction l with
  | nil =>
    have hempty : {s | ∃ a ∈ ([] : List α), s ∈ sources a} = (∅ : Set TypedSelections) := by
      ext s
      simp
    rw [hempty]
    exact gathered_nil
  | cons a l ih =>
    obtain ⟨ha, hl⟩ := List.forall_mem_cons.1 h
    have hunion : {s | ∃ b ∈ a :: l, s ∈ sources b} =
        sources a ∪ {s | ∃ b ∈ l, s ∈ sources b} := by
      ext s
      exact List.exists_mem_cons_iff _ a l
    rw [List.flatMap_cons, hunion]
    exact ha.append (ih hl)

/-! ## Derived keys -/

section Derived

variable {derive : SelectionKey → List SelectionKey}

theorem HasNames.withDerivedKeys (h : HasNames fs A) :
    HasNames (fs.map (Field.withDerivedKeys derive)) A := by
  intro s hs name hn
  rw [map_responseName_withDerivedKeys]
  exact h s hs name hn

/-- Fields are made from the same sources with derived keys, if each of them is. -/
theorem FieldsFrom.map_of (h : FieldsFrom schema registry fs A)
    (hd : ∀ c ∈ fs, ∀ copies sources, c.MadeFrom schema registry copies sources →
      (c.withDerivedKeys derive).MadeFrom schema registry copies sources) :
    FieldsFrom schema registry (fs.map (Field.withDerivedKeys derive)) A := by
  refine ⟨?_, h.names.withDerivedKeys⟩
  intro c' hc'
  obtain ⟨c, hc, rfl⟩ := List.mem_map.1 hc'
  rw [Field.responseName_withDerivedKeys]
  exact hd c hc _ _ (h.made c hc)

theorem Fragment.typeConditions_withDerivedKeys (derive : SelectionKey → List SelectionKey)
    (g : Fragment) : (g.withDerivedKeys derive).typeConditions = g.typeConditions := by
  cases g with
  | interface i => rw [Fragment.withDerivedKeys_interface]; rfl
  | implementation m => rw [Fragment.withDerivedKeys_implementation]; rfl

/-- What is below a field is made from the same sources with derived keys, if each of the
fields there is. -/
theorem ModelFrom.map_of {gs : List Fragment} (h : ModelFrom schema registry fs gs A)
    (hd : ∀ c ∈ subfieldsOf fs gs, ∀ copies sources, c.MadeFrom schema registry copies sources →
      (c.withDerivedKeys derive).MadeFrom schema registry copies sources) :
    ModelFrom schema registry (fs.map (Field.withDerivedKeys derive))
      (gs.map (Fragment.withDerivedKeys derive)) A := by
  refine ⟨h.own.map_of fun c hc => hd c (mem_subfieldsOf.2 (.inl hc)), ?_, ?_⟩
  · intro g' hg'
    obtain ⟨g, hg, rfl⟩ := List.mem_map.1 hg'
    rw [Fragment.fields_withDerivedKeys, Fragment.typeConditions_withDerivedKeys]
    exact (h.fragment g hg).map_of fun c hc => hd c (mem_subfieldsOf.2 (.inr ⟨g, hg, hc⟩))
  · intro s hs path u hu
    obtain ⟨i, hi, ht⟩ := h.interfaces s hs path u hu
    rw [interfacesIn_withDerivedKeys]
    exact ⟨_, List.mem_map_of_mem hi, ht⟩

/-- **Deriving keys changes no sources.** -/
theorem Field.MadeFrom.withDerivedKeys {f : Field} {copies : Set SelectedField}
    (h : f.MadeFrom schema registry copies A) (derive : SelectionKey → List SelectionKey) :
    (f.withDerivedKeys derive).MadeFrom schema registry copies A := by
  induction f using Field.induction generalizing copies A with
  | step f ih =>
    obtain ⟨hall, hbelow⟩ := Field.madeFrom_iff.1 h
    rw [Field.madeFrom_iff, Field.fields_withDerivedKeys, Field.fragments_withDerivedKeys]
    refine ⟨?_, hbelow.map_of fun c hc _ _ h => ih c hc h⟩
    constructor
    · rw [Field.conditions_withDerivedKeys]
      exact hall.nodup
    · rw [Field.conditions_withDerivedKeys]
      exact hall.mem_iff
    · exact hall.nonempty

theorem FieldsFrom.withDerivedKeys (h : FieldsFrom schema registry fs A)
    (derive : SelectionKey → List SelectionKey) :
    FieldsFrom schema registry (fs.map (Field.withDerivedKeys derive)) A :=
  h.map_of fun _ _ _ _ h => h.withDerivedKeys derive

theorem FieldsFrom.inherit (h : FieldsFrom schema registry fs A)
    (rebased : List (SelectionKey × SelectionKey)) :
    FieldsFrom schema registry (inheritFields fs rebased) A := by
  rw [inheritFields_eq_map]
  exact h.withDerivedKeys _

theorem ModelFrom.withDerivedKeys {gs : List Fragment} (h : ModelFrom schema registry fs gs A)
    (derive : SelectionKey → List SelectionKey) :
    ModelFrom schema registry (fs.map (Field.withDerivedKeys derive))
      (gs.map (Fragment.withDerivedKeys derive)) A :=
  h.map_of fun _ _ _ _ h => h.withDerivedKeys derive

end Derived

/-! ## Interfaces -/

/-- A merging makes fields with a property that are gathered from sources to fields from all
of them. -/
def MergesSources (schema : Schema) (registry : Registry) (merge : List Field → List Field)
    (Q : Field → Prop) : Prop :=
  ∀ fs sources, (∀ f ∈ fs, Q f) → Gathered schema registry fs sources →
    FieldsFrom schema registry (merge fs) sources

section Fragments

variable {pass : Pass} {merge : List Field → List Field} {Q : Field → Prop}

/-- Elements that come from sets fold to what comes from all of these sets, if the steps
unite them. -/
theorem foldl_of_union {α β : Type} {R : α → Set β → Prop} {f : α → α → α}
    (h : ∀ a b s t, R a s → R b t → R (f a b) (s ∪ t)) {p : α × Set β} {l : List (α × Set β)}
    (hl : ∀ q ∈ p :: l, R q.1 q.2) :
    R ((l.map Prod.fst).foldl f p.1) {x | ∃ q ∈ p :: l, x ∈ q.2} := by
  induction l generalizing p with
  | nil =>
    have hone : {x | ∃ q ∈ [p], x ∈ q.2} = p.2 := by
      ext x
      simp
    rw [hone]
    exact hl p List.mem_cons_self
  | cons q l ih =>
    obtain ⟨hp, hl⟩ := List.forall_mem_cons.1 hl
    obtain ⟨hq, hl⟩ := List.forall_mem_cons.1 hl
    have hunion : {x | ∃ r ∈ p :: q :: l, x ∈ r.2} =
        {x | ∃ r ∈ (f p.1 q.1, p.2 ∪ q.2) :: l, x ∈ r.2} := by
      ext x
      simp only [Set.mem_ofPred_eq, List.exists_mem_cons_iff, Set.mem_union, or_assoc]
    rw [hunion]
    have hstep : R (f p.1 q.1) (p.2 ∪ q.2) := h p.1 q.1 p.2 q.2 hp hq
    exact ih (p := (f p.1 q.1, p.2 ∪ q.2)) (List.forall_mem_cons.2 ⟨hstep, hl⟩)

/-- **A merged interface is made from the sources of all interfaces on its type
condition.** -/
theorem fieldsFrom_mergeInterfaces (hm : MergesSources schema registry merge Q)
    (hk : Keeps merge Q) {parts : List (Interface × Set TypedSelections)}
    (hq : ∀ p ∈ parts, ∀ f ∈ p.1.fields, Q f)
    (h : ∀ p ∈ parts, FieldsFrom schema registry p.1.fields p.2) {j : Interface}
    (hj : j ∈ mergeInterfaces merge (parts.map Prod.fst)) :
    FieldsFrom schema registry j.fields
      {v | ∃ p ∈ parts, p.1.typeCondition = j.typeCondition ∧ v ∈ p.2} := by
  have hgroups : groupBy Interface.typeCondition (parts.map Prod.fst) =
      (groupBy (fun p => p.1.typeCondition) parts).map (Group.map Prod.fst) :=
    groupBy_map (fun _ => rfl) parts
  obtain ⟨g', hg', rfl, hkey⟩ := exists_fold_of_mem hj
  rw [hgroups] at hg'
  obtain ⟨g, hg, rfl⟩ := List.mem_map.1 hg'
  have hmem : ∀ p ∈ g.first :: g.others, p ∈ parts := fun p hp =>
    ((mem_members_iff hg).1 hp).1
  have hsources : {v | ∃ p ∈ parts, p.1.typeCondition = g.key ∧ v ∈ p.2} =
      {v | ∃ p ∈ g.first :: g.others, v ∈ p.2} := by
    ext v
    constructor
    · rintro ⟨p, hp, ht, hv⟩
      exact ⟨p, (mem_members_iff hg).2 ⟨hp, ht⟩, hv⟩
    · rintro ⟨p, hp, hv⟩
      obtain ⟨hp, ht⟩ := (mem_members_iff hg).1 hp
      exact ⟨p, hp, ht, hv⟩
  have hfold : (∀ f ∈ ((g.others.map Prod.fst).foldl (mergeInterfacePair merge) g.first.1).fields,
        Q f) ∧ FieldsFrom schema registry
      ((g.others.map Prod.fst).foldl (mergeInterfacePair merge) g.first.1).fields
      {v | ∃ p ∈ g.first :: g.others, v ∈ p.2} := by
    refine foldl_of_union (R := fun (i : Interface) W => (∀ f ∈ i.fields, Q f) ∧
      FieldsFrom schema registry i.fields W) (fun a b V W ha hb => ?_)
      (fun p hp => ⟨hq p (hmem p hp), h p (hmem p hp)⟩)
    have hab : ∀ f ∈ a.fields ++ b.fields, Q f := List.forall_mem_append.2 ⟨ha.1, hb.1⟩
    exact ⟨hk _ hab, hm _ _ hab (ha.2.gathered.append hb.2.gathered)⟩
  rw [← hkey]
  change FieldsFrom schema registry _ {v | ∃ p ∈ parts, p.1.typeCondition = g.key ∧ v ∈ p.2}
  rw [hsources]
  exact hfold.2

/-! ## Fragments that are put together -/

theorem drawnOn_map (is : List Interface) :
    drawnOn registry (is.map Interface.typeCondition) A =
      A ∪ {v | ∃ i ∈ is, v ∈ drawnOn registry [i.typeCondition] A} := by
  ext v
  simp only [mem_drawnOn, Set.mem_union, Set.mem_ofPred_eq, List.mem_map, List.mem_singleton]
  constructor
  · rintro (hv | ⟨s, hs, path, u, hu, ⟨i, hi, ht⟩, hv⟩)
    · exact .inl hv
    · exact .inr ⟨i, hi, .inr ⟨s, hs, path, u, hu, ht.symm, hv⟩⟩
  · rintro (hv | ⟨i, hi, hv | ⟨s, hs, path, u, hu, ht, hv⟩⟩)
    · exact .inl hv
    · exact .inl hv
    · exact .inr ⟨s, hs, path, u, hu, ⟨i, hi, ht.symm⟩, hv⟩

/-- **Fragments that are put together are made from what they draw on**, if the fields of
the site and of the interfaces are. -/
theorem fieldsFrom_assemble (site : Site) (hm : MergesSources schema registry merge Q)
    {is : List Interface} (hsite : FieldsFrom schema registry site.fields A)
    (hi : ∀ i ∈ is, FieldsFrom schema registry i.fields (drawnOn registry [i.typeCondition] A))
    (hqs : ∀ f ∈ site.fields, Q f) (hqi : ∀ i ∈ is, ∀ f ∈ i.fields, Q f) :
    ∀ g ∈ assemble pass merge is site,
      FieldsFrom schema registry g.fields (drawnOn registry g.typeConditions A) := by
  intro g hg
  rcases mem_assemble hg with ⟨i, his, rfl⟩ | ⟨m, hmem, rfl⟩
  · exact hi i his
  · obtain ⟨type, ht⟩ := possibleTypes_ne_nil hmem
    obtain ⟨-, types, rfl⟩ := eq_implementationOf hmem ht
    have hsub : ∀ i ∈ satisfiedBy is type, i ∈ is := fun i h => (mem_satisfiedBy.1 h).1
    have hq : ∀ f ∈ site.fields ++ (satisfiedBy is type).flatMap Interface.fields, Q f := by
      intro f hf
      rcases List.mem_append.1 hf with hf | hf
      · exact hqs f hf
      · obtain ⟨i, his, hf⟩ := List.mem_flatMap.1 hf
        exact hqi i (hsub i his) f hf
    have hinner := gathered_flatMap (l := satisfiedBy is type) fun i his =>
      (hi i (hsub i his)).gathered
    have hmerged := hm _ _ hq (hsite.gathered.append hinner)
    rw [← drawnOn_map] at hmerged
    exact hmerged

/-! ## Merged pairs -/

/-- The interfaces among fragments with what they draw on. -/
def interfaceParts (registry : Registry) (fragments : List Fragment)
    (sources : Set TypedSelections) : List (Interface × Set TypedSelections) :=
  (interfacesIn fragments).map fun i => (i, drawnOn registry [i.typeCondition] sources)

theorem map_fst_interfaceParts (fragments : List Fragment) :
    (interfaceParts registry fragments A).map Prod.fst = interfacesIn fragments := by
  rw [interfaceParts, List.map_map]
  exact List.map_id _

/-- What the interfaces on a type condition draw on, as each occurrence has an interface. -/
theorem drawnOn_eq_parts {fragments : List Fragment}
    (h : HasInterfaces registry fragments A) (typeCondition : String) :
    drawnOn registry [typeCondition] A =
      A ∪ {v | ∃ p ∈ interfaceParts registry fragments A,
        p.1.typeCondition = typeCondition ∧ v ∈ p.2} := by
  ext v
  constructor
  · intro hv
    rcases mem_drawnOn.1 hv with hv | ⟨s, hs, path, u, hu, ht, hvp⟩
    · exact .inl hv
    · obtain ⟨i, hi, hti⟩ := h s hs path u hu
      have he : i.typeCondition = typeCondition := hti.trans (List.mem_singleton.1 ht)
      refine .inr ⟨(i, drawnOn registry [i.typeCondition] A), List.mem_map_of_mem hi, he, ?_⟩
      rw [he]
      exact hv
  · rintro (hv | ⟨p, hp, rfl, hv⟩)
    · exact subset_drawnOn _ hv
    · obtain ⟨i, -, rfl⟩ := List.mem_map.1 hp
      exact hv

theorem drawnOn_union (typeConditions : List String) :
    drawnOn registry typeConditions (A ∪ B) =
      drawnOn registry typeConditions A ∪ drawnOn registry typeConditions B := by
  ext v
  simp only [drawnOn, Set.mem_union, Set.mem_ofPred_eq, or_and_right, exists_or]

section Pair

variable {a b : Field} {copies copies' : Set SelectedField}

/-- The interfaces of a merged pair are made from what they draw on in both. -/
theorem fieldsFrom_pairInterfaces (hm : MergesSources schema registry merge Q)
    (hk : Keeps merge Q) (hd : KeptThrough (a.keys.union b.keys) Q)
    (ha : ModelFrom schema registry a.fields a.fragments A)
    (hb : ModelFrom schema registry b.fields b.fragments B)
    (hqa : ∀ c ∈ a.subfields, Q c) (hqb : ∀ c ∈ b.subfields, Q c) :
    ∀ i ∈ pairInterfaces merge a b,
      FieldsFrom schema registry i.fields (drawnOn registry [i.typeCondition] (A ∪ B)) := by
  intro i hi
  obtain ⟨j, hj, rfl⟩ := List.mem_map.1 hi
  have hown := hm _ _ (forall_fields_of_pair hqa hqb) (ha.own.gathered.append hb.own.gathered)
  let parts := interfaceParts registry a.fragments A ++ interfaceParts registry b.fragments B
  have hparts : parts.map Prod.fst = interfacesIn (a.fragments ++ b.fragments) := by
    rw [List.map_append, map_fst_interfaceParts, map_fst_interfaceParts, interfacesIn_append]
  have hmade : ∀ p ∈ parts, FieldsFrom schema registry p.1.fields p.2 := by
    intro p hp
    rcases List.mem_append.1 hp with hp | hp
    · obtain ⟨l, hl, rfl⟩ := List.mem_map.1 hp
      exact ha.fragment _ (mem_interfacesIn.1 hl)
    · obtain ⟨l, hl, rfl⟩ := List.mem_map.1 hp
      exact hb.fragment _ (mem_interfacesIn.1 hl)
  have hq : ∀ p ∈ parts, ∀ f ∈ p.1.fields, Q f := by
    intro p hp
    refine forall_interfaces_of_pair hqa hqb p.1 ?_
    rw [← hparts]
    exact List.mem_map_of_mem hp
  have hinner := fieldsFrom_mergeInterfaces hm hk hq hmade (hparts ▸ hj)
  have hcovered := hm _ _ (forall_covered hk hd hqa hqb j hj)
    ((hown.inherit _).gathered.append hinner.gathered)
  have hsources : drawnOn registry [j.typeCondition] (A ∪ B) =
      A ∪ B ∪ {v | ∃ p ∈ parts, p.1.typeCondition = j.typeCondition ∧ v ∈ p.2} := by
    have hsplit : {v | ∃ p ∈ parts, p.1.typeCondition = j.typeCondition ∧ v ∈ p.2} =
        {v | ∃ p ∈ interfaceParts registry a.fragments A,
          p.1.typeCondition = j.typeCondition ∧ v ∈ p.2} ∪
        {v | ∃ p ∈ interfaceParts registry b.fragments B,
          p.1.typeCondition = j.typeCondition ∧ v ∈ p.2} := by
      ext v
      simp only [parts, List.mem_append, or_and_right, exists_or, Set.mem_union, Set.mem_ofPred_eq]
    rw [drawnOn_union, drawnOn_eq_parts ha.interfaces, drawnOn_eq_parts hb.interfaces, hsplit,
      Set.union_union_union_comm]
  change FieldsFrom schema registry _ (drawnOn registry [j.typeCondition] (A ∪ B))
  rw [hsources]
  exact hcovered

/-- Each occurrence in the sources of a pair has an interface in the merged pair. -/
theorem hasInterfaces_pair (ha : HasInterfaces registry a.fragments A)
    (hb : HasInterfaces registry b.fragments B) :
    HasInterfaces registry (SelectionModel.mergeFieldPair pass merge a b).fragments (A ∪ B) := by
  intro s hs path u hu
  obtain ⟨i, hi, ht⟩ : ∃ i ∈ interfacesIn (a.fragments ++ b.fragments),
      i.typeCondition = u.type := by
    rw [interfacesIn_append]
    rcases hs with hs | hs
    · obtain ⟨i, hi, ht⟩ := ha s hs path u hu
      exact ⟨i, List.mem_append_left _ hi, ht⟩
    · obtain ⟨i, hi, ht⟩ := hb s hs path u hu
      exact ⟨i, List.mem_append_right _ hi, ht⟩
  obtain ⟨j, hj, hji⟩ := exists_mergeInterfaces merge hi
  rw [interfacesIn_mergeFieldPair]
  exact ⟨_, List.mem_map_of_mem hj, hji.trans ht⟩

theorem Field.SaysAll.mergeFieldPair (ha : a.SaysAll copies) (hb : b.SaysAll copies') :
    (mergeFieldPair pass merge a b).SaysAll (copies ∪ copies') where
  nodup := nodup_extendConditions ha.nodup b.conditions
  mem_iff c := by
    rw [mergeFieldPair_eq, mem_extendConditions, ha.mem_iff, hb.mem_iff]
    simp only [Set.mem_union, or_and_right, exists_or]
  nonempty := ha.nonempty.inl

/-- **A merged pair is made from the copies of both**, with the sources of both. -/
theorem Field.MadeFrom.mergeFieldPair (hm : MergesSources schema registry merge Q)
    (hk : Keeps merge Q) (hd : KeptThrough (a.keys.union b.keys) Q)
    (ha : a.MadeFrom schema registry copies A) (hb : b.MadeFrom schema registry copies' B)
    (hqa : ∀ c ∈ a.subfields, Q c) (hqb : ∀ c ∈ b.subfields, Q c) :
    (mergeFieldPair pass merge a b).MadeFrom schema registry (copies ∪ copies') (A ∪ B) := by
  obtain ⟨hallA, hbelowA⟩ := Field.madeFrom_iff.1 ha
  obtain ⟨hallB, hbelowB⟩ := Field.madeFrom_iff.1 hb
  have hown : FieldsFrom schema registry (merge (a.fields ++ b.fields)) (A ∪ B) :=
    hm _ _ (forall_fields_of_pair hqa hqb) (hbelowA.own.gathered.append hbelowB.own.gathered)
  rw [Field.madeFrom_iff]
  refine ⟨hallA.mergeFieldPair hallB, hown, ?_,
    hasInterfaces_pair hbelowA.interfaces hbelowB.interfaces⟩
  exact fieldsFrom_assemble (pairSite pass merge a b) hm hown
    (fieldsFrom_pairInterfaces hm hk hd hbelowA hbelowB hqa hqb)
    (hk _ (forall_fields_of_pair hqa hqb)) (forall_fields_pairInterfaces hk hd hqa hqb)

end Pair

end Fragments

/-! ## Merged fields -/

variable {pass : Pass}

/-- Only sources with a response name matter for the copies of that name. -/
theorem copiesIn_eq_of_subset (hsub : A ⊆ B) {name : String}
    (h : ∀ s ∈ B, s.Selects name → s ∈ A) : copiesIn A name = copiesIn B name := by
  ext n
  constructor
  · rintro ⟨s, hs, hn⟩
    exact ⟨s, hsub hs, hn⟩
  · rintro ⟨s, hs, hn⟩
    exact ⟨s, h s hs (List.ne_nil_of_mem hn), hn⟩

theorem belowIn_eq_of_subset (hsub : A ⊆ B) {name : String}
    (h : ∀ s ∈ B, s.Selects name → s ∈ A) : belowIn schema A name = belowIn schema B name := by
  ext t
  constructor
  · rintro ⟨s, hs, ht⟩
    exact ⟨s, hsub hs, ht⟩
  · rintro ⟨s, hs, ht⟩
    exact ⟨s, h s hs (TypedSelections.selects_of_below ht), ht⟩

/-- The fields of one response name are merged to a field from the copies of all. -/
theorem madeFrom_foldl {n : Nat} {name : String}
    (hm : MergesSources schema registry (mergeFields pass) fun f => f.depth ≤ n)
    {p : Field × Set TypedSelections} {l : List (Field × Set TypedSelections)}
    (h : ∀ q ∈ p :: l, q.1.depth ≤ n + 1 ∧
      q.1.MadeFrom schema registry (copiesIn q.2 name) (belowIn schema q.2 name)) :
    Field.MadeFrom schema registry
      ((l.map Prod.fst).foldl (mergeFieldPair pass (mergeFields pass)) p.1)
      (copiesIn {s | ∃ q ∈ p :: l, s ∈ q.2} name)
      (belowIn schema {s | ∃ q ∈ p :: l, s ∈ q.2} name) := by
  have hkeeps : Keeps (mergeFields pass) fun f => f.depth ≤ n := fun gs h =>
    fieldsDepth_le.1 ((depth_mergeFields gs).trans (fieldsDepth_le.2 h))
  refine (foldl_of_union (R := fun (f : Field) W => f.depth ≤ n + 1 ∧
    f.MadeFrom schema registry (copiesIn W name) (belowIn schema W name))
    (fun a b V W ha hb => ?_) h).2
  have hqa := Field.depth_le_succ.1 ha.1
  have hqb := Field.depth_le_succ.1 hb.1
  have hderived := (keptByKeys_depth n).inherited (a.keys.union b.keys)
  refine ⟨Field.depth_le_succ.2 (forall_subfields_mergeFieldPair hkeeps hderived hqa hqb), ?_⟩
  rw [copiesIn_union, belowIn_union]
  exact ha.2.mergeFieldPair hm hkeeps hderived hb.2 hqa hqb

/-- Merging keeps sources up to a bound on the depth: what is below a pair is merged from
fields that are nested less deep. -/
theorem mergesSources_at (pass : Pass) (n : Nat) :
    MergesSources schema registry (mergeFields pass) fun f => f.depth ≤ n := by
  induction n with
  | zero =>
    intro fs sources hdepth hfs
    obtain rfl := eq_nil_of_fieldsDepth (Nat.le_zero.1 (fieldsDepth_le.2 hdepth))
    obtain ⟨parts, hparts, -, hall⟩ := hfs
    obtain rfl := List.map_eq_nil_iff.1 hparts
    rw [mergeFields_eq]
    refine ⟨fun c hc => absurd hc List.not_mem_nil, fun s hs name hn => ?_⟩
    obtain ⟨p, hp, -⟩ := hall s hs name hn
    exact absurd hp List.not_mem_nil
  | succ n ih =>
    rintro fs sources hdepth ⟨parts, rfl, hmade, hall⟩
    refine ⟨fun f hf => ?_, fun s hs name hn => ?_⟩
    · have hgroups : groupBy Field.responseName (parts.map Prod.fst) =
          (groupBy (fun p => p.1.responseName) parts).map (Group.map Prod.fst) :=
        groupBy_map (fun _ => rfl) parts
      rw [mergeFields_eq, hgroups] at hf
      obtain ⟨g', hg', rfl⟩ := List.mem_map.1 hf
      obtain ⟨g, hg, rfl⟩ := List.mem_map.1 hg'
      have hmem : ∀ p ∈ g.first :: g.others, p ∈ parts ∧ p.1.responseName = g.key := fun p hp =>
        (mem_members_iff hg).1 hp
      have hparts : ∀ p ∈ g.first :: g.others, p.1.depth ≤ n + 1 ∧
          p.1.MadeFrom schema registry (copiesIn p.2 g.key) (belowIn schema p.2 g.key) := by
        intro p hp
        obtain ⟨hp, hname⟩ := hmem p hp
        refine ⟨hdepth p.1 (List.mem_map_of_mem hp), ?_⟩
        rw [← hname]
        exact (hmade p hp).2
      have hfold := madeFrom_foldl ih hparts
      -- what counts of the name in the sources is in the parts of the group
      have hsub : {s | ∃ p ∈ g.first :: g.others, s ∈ p.2} ⊆ sources := by
        rintro s ⟨p, hp, hs⟩
        exact (hmade p (hmem p hp).1).1 hs
      have hcount : ∀ s ∈ sources, s.Selects g.key →
          s ∈ {s | ∃ p ∈ g.first :: g.others, s ∈ p.2} := by
        intro s hs hn
        obtain ⟨p, hp, hpn, hs⟩ := hall s hs g.key hn
        exact ⟨p, (mem_members_iff hg).2 ⟨hp, hpn⟩, hs⟩
      rw [copiesIn_eq_of_subset hsub hcount, belowIn_eq_of_subset hsub hcount] at hfold
      rw [responseName_foldl]
      change Field.MadeFrom schema registry _ (copiesIn sources g.first.1.responseName)
        (belowIn schema sources g.first.1.responseName)
      rw [(hmem g.first List.mem_cons_self).2]
      exact hfold
    · obtain ⟨p, hp, hpn, -⟩ := hall s hs name hn
      rw [mem_names_mergeFields, ← hpn]
      exact List.mem_map_of_mem (List.mem_map_of_mem hp)

/-- **Merging gathered fields makes fields from all sources.** -/
theorem fieldsFrom_mergeFields (pass : Pass) (h : Gathered schema registry fs A) :
    FieldsFrom schema registry (mergeFields pass fs) A :=
  mergesSources_at pass (fieldsDepth fs) fs A (fieldsDepth_le.1 (Nat.le_refl _)) h

end SelectionModel
