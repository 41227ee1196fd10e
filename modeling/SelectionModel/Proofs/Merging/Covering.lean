import SelectionModel.Proofs.Merging.Depth
import SelectionModel.Proofs.Merging.Growth
import SelectionModel.Proofs.Tree.Covering

/-!
# Merging and covering

Merging never drops anything: the field that is left of a response name covers all
fields of that name, and the interface that is left of a type condition all
interfaces on it. Interfaces of merged fields take over the fields they stand
beside, and implementations are made from all they stand for.

* `enlarges_covers`: **merged fields cover the fields they are merged from.**
* `coversInterfaces_mergeInterfaces`: so do merged interfaces.
* `fragmentsCover_assemble`: what fragments that are put together cover.
-/

namespace SelectionModel

theorem mem_extendConditions {conditions additional : List Condition} {c : Condition} :
    c ∈ extendConditions conditions additional ↔ c ∈ conditions ∨ c ∈ additional := by
  rw [extendConditions]
  induction additional generalizing conditions with
  | nil => simp
  | cons a additional ih =>
    rw [List.foldl_cons, ih]
    by_cases h : a ∈ conditions
    · rw [if_pos h, List.mem_cons]
      exact ⟨fun hc => hc.imp_right .inr, fun hc => hc.elim .inl fun hc =>
        hc.elim (fun e => .inl (e ▸ h)) .inr⟩
    · rw [if_neg h, List.mem_append, List.mem_singleton, List.mem_cons, or_assoc]

theorem extendConditions_mono {cs cs' ds ds' : List Condition} (h : ∀ c ∈ cs, c ∈ cs')
    (h' : ∀ c ∈ ds, c ∈ ds') : ∀ c ∈ extendConditions cs ds, c ∈ extendConditions cs' ds' :=
  fun c hc => mem_extendConditions.2 ((mem_extendConditions.1 hc).imp (h c) (h' c))

variable {pass : Pass} {merge : List Field → List Field} {is : List Interface}

/-! ## Inherited fields -/

theorem mem_rebaseKey {keys : OrderedSet SelectionKey} {typeCondition : String}
    {k l : SelectionKey} :
    l ∈ rebaseKey (rebasedKeys keys typeCondition) k ↔
      ∃ start ∈ keys, k.rebase? start (start.child (capitalize typeCondition)) = some l := by
  simp only [rebaseKey, rebasedKeys, List.filterMap_map, List.mem_filterMap, Function.comp_apply]
  rfl

/-- **More fields inherit more**, through more keys. -/
theorem CoversFields.inheritFields {gs fs : List Field} (h : CoversFields gs fs)
    {keys keys' : OrderedSet SelectionKey} (hk : ∀ k ∈ keys, k ∈ keys') (typeCondition : String) :
    CoversFields (inheritFields gs (rebasedKeys keys' typeCondition))
      (inheritFields fs (rebasedKeys keys typeCondition)) := by
  rw [inheritFields_eq_map, inheritFields_eq_map]
  refine h.withDerivedKeys fun k l hl => ?_
  obtain ⟨start, hs, hl⟩ := mem_rebaseKey.1 hl
  exact mem_rebaseKey.2 ⟨start, hk start hs, hl⟩

/-! ## Interfaces -/

theorem mergeInterfacePair_covers_left (hm : Grows Field.Covers merge) (a b : Interface) :
    (mergeInterfacePair merge a b).Covers a where
  typeCondition := rfl
  keys _ hk := OrderedSet.mem_union.2 (.inl hk)
  conditions _ hc := mem_extendConditions.2 (.inl hc)
  fields := hm.left _ _

theorem mergeInterfacePair_covers_right (hm : Grows Field.Covers merge) {a b : Interface}
    (h : a.typeCondition = b.typeCondition) : (mergeInterfacePair merge a b).Covers b where
  typeCondition := h
  keys _ hk := OrderedSet.mem_union.2 (.inr hk)
  conditions _ hc := mem_extendConditions.2 (.inr hc)
  fields := hm.right _ _

/-- **Merged interfaces cover the interfaces they are merged from.** -/
theorem coversInterfaces_mergeInterfaces (hm : Grows Field.Covers merge) (is : List Interface) :
    CoversInterfaces (mergeInterfaces merge is) is :=
  supplies_mergeInterfaces (mergeInterfacePair_covers_left hm)
    (fun _ _ => mergeInterfacePair_covers_right hm) is

theorem coverFields_covers (hm : Grows Field.Covers merge) (fs : List Field)
    (keys : OrderedSet SelectionKey) (i : Interface) : (coverFields merge fs keys i).Covers i where
  typeCondition := rfl
  keys _ hk := hk
  conditions _ hc := hc
  fields := hm.right _ _

/-! ## Fields -/

/-- The interfaces of a merged pair cover those of both. -/
theorem coversInterfaces_pairInterfaces (hm : Grows Field.Covers merge) (a b : Field) :
    CoversInterfaces (pairInterfaces merge a b) (interfacesIn (a.fragments ++ b.fragments)) := by
  refine Supplies.trans (fun i hi => ?_) (coversInterfaces_mergeInterfaces hm _)
  exact ⟨_, List.mem_map_of_mem hi, coverFields_covers hm _ _ i⟩

/-- **A merged pair covers what is made of parts of the two.** -/
theorem mergeFieldPair_covers (hm : Grows Field.Covers merge) {a b c : Field}
    (hn : a.responseName = c.responseName) (hk : ∀ k ∈ c.keys, k ∈ a.keys.union b.keys)
    (hc : ∀ d ∈ c.conditions, d ∈ extendConditions a.conditions b.conditions)
    (hf : ∀ f ∈ c.fields, f ∈ a.fields ++ b.fields)
    (hg : ∀ g ∈ c.fragments, g ∈ a.fragments ++ b.fragments) :
    (mergeFieldPair pass merge a b).Covers c := by
  rw [Field.covers_iff, interfacesIn_mergeFieldPair]
  refine ⟨hn, hk, hc, (hm _).trans (.of_subset hf), ?_⟩
  refine (coversInterfaces_pairInterfaces hm a b).trans (.of_subset fun i hi => ?_)
  exact mem_interfacesIn.2 (hg _ (mem_interfacesIn.1 hi))

theorem mergeFieldPair_covers_left (hm : Grows Field.Covers merge) (a b : Field) :
    (mergeFieldPair pass merge a b).Covers a :=
  mergeFieldPair_covers hm rfl (fun _ hk => OrderedSet.mem_union.2 (.inl hk))
    (fun _ hc => mem_extendConditions.2 (.inl hc)) (fun _ hf => List.mem_append_left _ hf)
    fun _ hg => List.mem_append_left _ hg

theorem mergeFieldPair_covers_right (hm : Grows Field.Covers merge) {a b : Field}
    (h : a.responseName = b.responseName) : (mergeFieldPair pass merge a b).Covers b :=
  mergeFieldPair_covers hm h (fun _ hk => OrderedSet.mem_union.2 (.inr hk))
    (fun _ hc => mem_extendConditions.2 (.inr hc)) (fun _ hf => List.mem_append_right _ hf)
    fun _ hg => List.mem_append_right _ hg

/-- **Merged fields cover the fields they are merged from.** -/
theorem enlarges_covers (pass : Pass) : Enlarges pass Field.Covers where
  responseName := Field.Covers.responseName
  derived := Field.covers_withDerivedKeys
  left := mergeFieldPair_covers_left
  right hm _ _ := mergeFieldPair_covers_right hm

/-! ## Fragments -/

/-- **Fragments cover their selection**: each of them has the fields of the selection,
and an implementation has those of the interfaces it stands for. -/
structure FragmentsCover (fields : List Field) (fragments : List Fragment) : Prop where
  own : ∀ g ∈ fragments, CoversFields g.fields fields
  interfaces : ∀ m ∈ implementationsIn fragments, ∀ i ∈ interfacesIn fragments,
    i.typeCondition ∈ m.typeConditions → CoversFields m.fields i.fields

/-- **What fragments that are put together cover**, if their interfaces cover the site. -/
theorem fragmentsCover_assemble (site : Site) (hm : Grows Field.Covers merge)
    (hn : (is.map Interface.typeCondition).Nodup)
    (hi : ∀ i ∈ is, CoversFields i.fields site.fields) :
    FragmentsCover site.fields (assemble pass merge is site) where
  own := by
    intro g hg
    rcases mem_assemble hg with ⟨i, h, rfl⟩ | ⟨m, h, rfl⟩
    · exact hi i h
    · obtain ⟨type, ht⟩ := possibleTypes_ne_nil h
      obtain ⟨-, _, rfl⟩ := eq_implementationOf h ht
      exact hm.left _ _
  interfaces := by
    rw [interfacesIn_assemble, implementationsIn_assemble]
    intro m hmem i his htc
    split at hmem
    · obtain ⟨type, ht⟩ := possibleTypes_ne_nil hmem
      obtain ⟨-, _, rfl⟩ := eq_implementationOf hmem ht
      -- no type condition stands twice, so the interface is one of those it was made from
      obtain ⟨j, hj, he⟩ := List.mem_map.1 htc
      obtain rfl := List.inj_on_of_nodup_map hn (mem_satisfiedBy.1 hj).1 his he
      exact (hm.right _ _).trans (.of_subset fun f hf => List.mem_flatMap.2 ⟨j, hj, hf⟩)
    · cases hmem

theorem FragmentsCover.withDerivedKeys {fields : List Field} {fragments : List Fragment}
    (h : FragmentsCover fields fragments) (derive : SelectionKey → List SelectionKey) :
    FragmentsCover (fields.map (Field.withDerivedKeys derive))
      (fragments.map (Fragment.withDerivedKeys derive)) where
  own := by
    intro g' hg'
    obtain ⟨g, hg, rfl⟩ := List.mem_map.1 hg'
    rw [Fragment.fields_withDerivedKeys]
    exact (h.own g hg).withDerivedKeys fun _ _ hk => hk
  interfaces := by
    rw [interfacesIn_withDerivedKeys, implementationsIn_withDerivedKeys]
    intro m' hm' i' hi' ht
    obtain ⟨m, hm, rfl⟩ := List.mem_map.1 hm'
    obtain ⟨i, hi, rfl⟩ := List.mem_map.1 hi'
    exact (h.interfaces m hm i hi ht).withDerivedKeys fun _ _ hk => hk

/-- The fragments of a field cover its selection. -/
def Field.FragmentsCover (f : Field) : Prop := SelectionModel.FragmentsCover f.fields f.fragments

theorem keptByKeys_fragmentsCover : KeptByKeys Field.FragmentsCover := by
  intro derive f h
  rw [Field.FragmentsCover, Field.fields_withDerivedKeys, Field.fragments_withDerivedKeys]
  exact SelectionModel.FragmentsCover.withDerivedKeys h derive

/-- The interfaces of a merged pair were made to cover its fields. -/
theorem fragmentsCover_mergeFieldPair (hm : Grows Field.Covers merge) (a b : Field) :
    (mergeFieldPair pass merge a b).FragmentsCover := by
  refine fragmentsCover_assemble (pairSite pass merge a b) hm (nodup_typeConditions_pair merge a b)
    fun i hi => ?_
  obtain ⟨j, -, rfl⟩ := List.mem_map.1 hi
  exact (enlarges_covers pass).supplies_coverFields hm _ _ j

end SelectionModel
