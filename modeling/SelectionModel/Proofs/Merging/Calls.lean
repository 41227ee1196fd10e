import SelectionModel.Proofs.Merging.Fields

/-!
# What is merged below a pair

To merge two fields is to merge lists of fields below them: the two selections, the
interfaces of one type condition, each interface with the merged selection, and what an
implementation takes from its interfaces. Some of these lists are themselves results of
merging, so they are no parts of the two fields.

* `PairMerges`: the lists of fields that are merged below a pair.
* `mergeFieldPair_eq_of_calls`: **no other list matters**: mergings that do the same to these
  give the same pair.
* `PairMerges.forall`: what the lists consist of.
-/

namespace SelectionModel

variable {pass : Pass} {merge merge' : List Field → List Field} {a b : Field}

/-- **The lists of fields that are merged below a pair.** -/
inductive PairMerges (pass : Pass) (merge : List Field → List Field) (a b : Field) :
    List Field → Prop where
  /-- The two selections. -/
  | selections : PairMerges pass merge a b (a.fields ++ b.fields)
  /-- An interface with those of its type condition that were merged before it. -/
  | interfaces {g : Group String Interface} {before after : List Interface} {next : Interface} :
    g ∈ groupBy Interface.typeCondition (interfacesIn (a.fragments ++ b.fragments)) →
    g.others = before ++ next :: after →
    PairMerges pass merge a b
      ((before.foldl (mergeInterfacePair merge) g.first).fields ++ next.fields)
  /-- A merged interface with the merged selection, which it inherits. -/
  | covered {i : Interface} :
    i ∈ mergeInterfaces merge (interfacesIn (a.fragments ++ b.fragments)) →
    PairMerges pass merge a b
      (inheritFields (merge (a.fields ++ b.fields))
          (rebasedKeys (a.keys.union b.keys) i.typeCondition) ++ i.fields)
  /-- The merged selection with the interfaces that an implementation stands for. -/
  | implementation {g : Group (List Nat) String} : pass.withImplementations = true →
    g ∈ groupBy (satisfied (pairInterfaces merge a b))
      (pass.schema.possibleTypes a.type.innermostName).toList →
    PairMerges pass merge a b
      (merge (a.fields ++ b.fields) ++
        (g.key.filterMap fun n => (pairInterfaces merge a b)[n]?).flatMap Interface.fields)

/-! ## No other list matters -/

section Same

variable (h : ∀ fs, PairMerges pass merge a b fs → merge' fs = merge fs)

include h

theorem pairInterfaces_eq_of_calls : pairInterfaces merge' a b = pairInterfaces merge a b := by
  have hmerged : mergeInterfaces merge' (interfacesIn (a.fragments ++ b.fragments)) =
      mergeInterfaces merge (interfacesIn (a.fragments ++ b.fragments)) := by
    apply List.map_congr_left
    intro g hg
    apply foldl_congr_prefix
    intro before next after hothers
    rw [mergeInterfacePair, mergeInterfacePair, h _ (.interfaces hg hothers)]
  unfold pairInterfaces
  rw [hmerged, h _ .selections]
  apply List.map_congr_left
  intro i hi
  unfold coverFields
  rw [h _ (.covered hi)]

/-- **Mergings that do the same to these lists** give the same pair. -/
theorem mergeFieldPair_eq_of_calls :
    mergeFieldPair pass merge' a b = mergeFieldPair pass merge a b := by
  have hinterfaces := pairInterfaces_eq_of_calls h
  have hfields := h _ .selections
  have hsite : pairSite pass merge' a b = pairSite pass merge a b := by
    unfold pairSite
    rw [hfields]
  have hfragments :
      assemble pass merge' (pairInterfaces merge a b) (pairSite pass merge a b) =
        assemble pass merge (pairInterfaces merge a b) (pairSite pass merge a b) := by
    unfold assemble
    congr 1
    split
    next hpass =>
      unfold implementations
      split
      · rfl
      · congr 1
        apply List.map_congr_left
        intro g hg
        unfold implementationOf
        rw [pairSite, h _ (.implementation hpass hg)]
    · rfl
  rw [mergeFieldPair_eq, mergeFieldPair_eq, hfields, hinterfaces, hsite, hfragments]

end Same

/-! ## What the lists consist of -/

variable {Q : Field → Prop} {fs : List Field}

/-- **The lists have every property of what is below the two fields**, if the merging and
inheritance keep it. -/
theorem PairMerges.forall (h : PairMerges pass merge a b fs) (hm : Keeps merge Q)
    (hd : KeptThrough (a.keys.union b.keys) Q) (ha : ∀ c ∈ a.subfields, Q c)
    (hb : ∀ c ∈ b.subfields, Q c) : ∀ f ∈ fs, Q f := by
  have hfields := forall_fields_of_pair ha hb
  have hinterfaces := forall_interfaces_of_pair ha hb
  cases h with
  | selections => exact hfields
  | @interfaces g before after next hg hothers =>
    have hmembers : ∀ i ∈ g.members, ∀ f ∈ i.fields, Q f := by
      intro i hi
      exact hinterfaces i ((mem_members_iff hg).1 hi).1
    -- what was merged before the interface is a fold over members of the group, too
    have hbefore : ∀ i ∈ g.first :: before, ∀ f ∈ i.fields, Q f := by
      intro i hi
      apply hmembers i
      unfold Group.members
      rw [hothers]
      rcases List.mem_cons.1 hi with rfl | hi
      · exact List.mem_cons_self
      · exact List.mem_cons_of_mem _ (List.mem_append_left _ hi)
    have hnext : ∀ f ∈ next.fields, Q f := by
      apply hmembers next
      unfold Group.members
      rw [hothers]
      simp
    have hfold : ∀ f ∈ (before.foldl (mergeInterfacePair merge) g.first).fields, Q f := by
      apply foldl_of_forall (p := fun i : Interface => ∀ f ∈ i.fields, Q f) _ hbefore
      intro i j hi hj
      exact hm _ (List.forall_mem_append.2 ⟨hi, hj⟩)
    exact List.forall_mem_append.2 ⟨hfold, hnext⟩
  | covered hi => exact forall_covered hm hd ha hb _ hi
  | @implementation g hpass hg =>
    refine List.forall_mem_append.2 ⟨hm _ hfields, ?_⟩
    intro f hf
    obtain ⟨i, hi, hf⟩ := List.mem_flatMap.1 hf
    obtain ⟨n, -, hn⟩ := List.mem_filterMap.1 hi
    exact forall_fields_pairInterfaces hm hd ha hb i (List.mem_of_getElem? hn) f hf

end SelectionModel
