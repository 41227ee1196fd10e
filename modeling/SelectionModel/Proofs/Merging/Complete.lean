import SelectionModel.Proofs.Merging.Covering
import SelectionModel.Proofs.Names

/-!
# Merging a field with itself

Merging a field with itself loses nothing, but it may add something: each interface of
the field inherits the fields of the selection again, through the keys of the selection
itself. A field is complete when its interfaces have all of this already, and such a
field covers whatever is merged from fields that it covers.

* `Field.Complete`: interfaces have what they inherit, at every depth.
* `Field.Complete.absorbs`: **a complete field covers what is merged from what it
  covers.**
* `Field.covers_merged_self_iff`: **merging a field with itself adds nothing exactly
  when the field is complete.**
-/

namespace SelectionModel

/-- **The interfaces of a field have what they inherit from its selection**, at every
depth of the field and its interfaces. -/
inductive Field.Complete : Field → Prop where
  | intro {f : Field} :
    (∀ i ∈ interfacesIn f.fragments,
      CoversFields i.fields (inheritFields f.fields (rebasedKeys f.keys i.typeCondition))) →
    (∀ c ∈ f.fields, c.Complete) →
    (∀ i ∈ interfacesIn f.fragments, ∀ c ∈ i.fields, c.Complete) →
    f.Complete

/-- A field covers what is merged from two fields that it covers. -/
def Field.Absorbs (pass : Pass) (g : Field) : Prop :=
  ∀ a b, g.Covers a → g.Covers b → g.Covers (mergeFieldPair pass (mergeFields pass) a b)

variable {pass : Pass}

/-! ## Complete fields absorb -/

/-- What is merged from fields is covered by what covers the fields, if no two of the
covering fields have the same name and each of them absorbs. -/
theorem CoversFields.absorb {gs fs : List Field} (hn : (gs.map Field.responseName).Nodup)
    (ha : ∀ g ∈ gs, g.Absorbs pass) (h : CoversFields gs fs) :
    CoversFields gs (mergeFields pass fs) := by
  intro f hf
  rw [mergeFields_eq] at hf
  obtain ⟨group, hgroup, rfl⟩ := List.mem_map.1 hf
  obtain ⟨hfirst, hname⟩ := (mem_members_iff hgroup).1 List.mem_cons_self
  obtain ⟨g, hg, hgf⟩ := h _ hfirst
  refine ⟨g, hg, foldl_of_forall (ha g hg) fun c hc => ?_⟩
  -- the whole group has one name, so one field covers all of it
  obtain ⟨hcs, hcname⟩ := (mem_members_iff hgroup).1 hc
  obtain ⟨d, hd, hdc⟩ := h c hcs
  have he : d.responseName = g.responseName := by
    rw [hdc.responseName, hgf.responseName, hcname, hname]
  rwa [← List.inj_on_of_nodup_map hn hd hg he]

/-- The same for merged interfaces. -/
theorem CoversInterfaces.absorb {js is : List Interface}
    (hn : (js.map Interface.typeCondition).Nodup)
    (hnames : ∀ j ∈ js, (j.fields.map Field.responseName).Nodup)
    (ha : ∀ j ∈ js, ∀ c ∈ j.fields, c.Absorbs pass) (h : CoversInterfaces js is) :
    CoversInterfaces js (mergeInterfaces (mergeFields pass) is) := by
  intro i hi
  obtain ⟨group, hgroup, rfl⟩ := List.mem_map.1 hi
  obtain ⟨hfirst, htype⟩ := (mem_members_iff hgroup).1 List.mem_cons_self
  obtain ⟨j, hj, hji⟩ := h _ hfirst
  refine ⟨j, hj, foldl_of_forall (p := j.Covers) (fun a b h h' => ?_) fun c hc => ?_⟩
  · exact ⟨h.typeCondition,
      fun k hk => (OrderedSet.mem_union.1 hk).elim (h.keys k) (h'.keys k),
      fun c hc => (mem_extendConditions.1 hc).elim (h.conditions c) (h'.conditions c),
      .absorb (hnames j hj) (ha j hj) (h.fields.append h'.fields)⟩
  · obtain ⟨hcs, hctype⟩ := (mem_members_iff hgroup).1 hc
    obtain ⟨d, hd, hdc⟩ := h c hcs
    have he : d.typeCondition = j.typeCondition := by
      rw [hdc.typeCondition, hji.typeCondition, hctype, htype]
    rwa [← List.inj_on_of_nodup_map hn hd hj he]

/-- **A complete field covers what is merged from what it covers.** -/
theorem Field.Complete.absorbs {g : Field} (hg : g.Complete) (ht : g.Everywhere Field.Tidy) :
    g.Absorbs pass := by
  induction hg with
  | @intro g hinherit _ _ ihown ihinterfaces =>
    obtain ⟨htidy, htbelow⟩ := Field.everywhere_iff.1 ht
    obtain ⟨htown, htinterfaces⟩ := Field.forall_of_subfields htbelow
    have hnames : ∀ i ∈ interfacesIn g.fragments, (i.fields.map Field.responseName).Nodup :=
      fun i hi => htidy.names.fragment _ (mem_interfacesIn.1 hi)
    have hown : ∀ c ∈ g.fields, c.Absorbs pass := fun c hc => ihown c hc (htown c hc)
    have hinterfaces : ∀ i ∈ interfacesIn g.fragments, ∀ c ∈ i.fields, c.Absorbs pass :=
      fun i hi c hc => ihinterfaces i hi c hc (htinterfaces i hi c hc)
    intro a b ha hb
    have hkeys : ∀ k ∈ a.keys.union b.keys, k ∈ g.keys := fun k hk =>
      (OrderedSet.mem_union.1 hk).elim (ha.keys k) (hb.keys k)
    have hfields : CoversFields g.fields (mergeFields pass (a.fields ++ b.fields)) :=
      .absorb htidy.names.own hown (ha.fields.append hb.fields)
    rw [Field.covers_iff, interfacesIn_mergeFieldPair]
    refine ⟨ha.responseName, hkeys,
      fun c hc => (mem_extendConditions.1 hc).elim (ha.conditions c) (hb.conditions c), hfields, ?_⟩
    intro i hi
    obtain ⟨j, hj, rfl⟩ := List.mem_map.1 hi
    have hmerged : CoversInterfaces (interfacesIn g.fragments)
        (interfacesIn (a.fragments ++ b.fragments)) := by
      rw [interfacesIn_append]
      exact List.forall_mem_append.2 ⟨ha.interfaces, hb.interfaces⟩
    obtain ⟨l, hl, hlj⟩ := hmerged.absorb htidy.typeConditions hnames hinterfaces j hj
    -- what the merged interface takes over, this one has inherited already
    refine ⟨l, hl, hlj.typeCondition, hlj.keys, hlj.conditions, ?_⟩
    refine .absorb (hnames l hl) (hinterfaces l hl) (.append ?_ hlj.fields)
    rw [← hlj.typeCondition]
    exact (hinherit l hl).trans (hfields.inheritFields hkeys _)

/-! ## Merging a field with itself -/

theorem mem_mergeFields_self {fs : List Field} (hn : (fs.map Field.responseName).Nodup) {c : Field}
    (hc : c ∈ fs) : mergeFieldPair pass (mergeFields pass) c c ∈ mergeFields pass (fs ++ fs) := by
  rw [mergeFields_eq]
  exact List.mem_map.2 ⟨_, mem_groupBy_append_self hn hc, rfl⟩

theorem mem_mergeInterfaces_self {merge : List Field → List Field} {is : List Interface}
    (hn : (is.map Interface.typeCondition).Nodup) {i : Interface} (hi : i ∈ is) :
    mergeInterfacePair merge i i ∈ mergeInterfaces merge (is ++ is) :=
  List.mem_map.2 ⟨_, mem_groupBy_append_self hn hi, rfl⟩

/-- Where merging fields with themselves adds nothing to them, it adds nothing to each. -/
theorem CoversFields.covers_self {fs : List Field} (hn : (fs.map Field.responseName).Nodup)
    (h : CoversFields fs (mergeFields pass (fs ++ fs))) :
    ∀ c ∈ fs, c.Covers (mergeFieldPair pass (mergeFields pass) c c) := by
  intro c hc
  obtain ⟨d, hd, hdc⟩ := h _ (mem_mergeFields_self hn hc)
  obtain rfl := List.inj_on_of_nodup_map hn hd hc hdc.responseName
  exact hdc

/-- The interfaces of a field cover what merging the field with itself makes of them. -/
theorem Field.Covers.interface_self {f : Field} (ht : f.Tidy)
    (h : f.Covers (mergeFieldPair pass (mergeFields pass) f f)) :
    ∀ i ∈ interfacesIn f.fragments,
      i.Covers (coverFields (mergeFields pass) (mergeFields pass (f.fields ++ f.fields))
        (f.keys.union f.keys) (mergeInterfacePair (mergeFields pass) i i)) := by
  have hc := h.interfaces
  rw [interfacesIn_mergeFieldPair, pairInterfaces, interfacesIn_append] at hc
  intro i hi
  obtain ⟨j, hj, hji⟩ := hc _ (List.mem_map_of_mem (mem_mergeInterfaces_self ht.typeConditions hi))
  obtain rfl := List.inj_on_of_nodup_map ht.typeConditions hj hi hji.typeCondition
  exact hji

/-- A field to which merging it with itself adds nothing is complete. -/
theorem Field.complete_of_covers_self {f : Field} (ht : f.Everywhere Field.Tidy)
    (h : f.Covers (mergeFieldPair pass (mergeFields pass) f f)) : f.Complete := by
  have hm := (enlarges_covers pass).grows
  induction f using Field.induction with
  | step f ih =>
    obtain ⟨htidy, htbelow⟩ := Field.everywhere_iff.1 ht
    obtain ⟨ihown, ihinterfaces⟩ := Field.forall_of_subfields fun c hc => ih c hc (htbelow c hc)
    have hown := CoversFields.covers_self htidy.names.own h.fields
    have hinterfaces := h.interface_self htidy
    refine .intro (fun i hi => ?_) (fun c hc => ihown c hc (hown c hc)) fun i hi c hc => ?_
    -- the merged interface has inherited the merged fields, and so has the one that covers it
    · refine ((hinterfaces i hi).fields.trans (hm.left _ _)).trans ?_
      exact CoversFields.inheritFields (hm.left _ _)
        (fun k hk => OrderedSet.mem_union.2 (.inl hk)) _
    · have hn := htidy.names.fragment _ (mem_interfacesIn.1 hi)
      refine ihinterfaces i hi c hc (CoversFields.covers_self hn ?_ c hc)
      exact (hinterfaces i hi).fields.trans (hm.right _ _)

/-- **Merging a field with itself adds nothing exactly when the field is complete.** -/
theorem Field.covers_merged_self_iff {f : Field} (ht : f.Everywhere Field.Tidy) :
    f.Covers (mergeFieldPair pass (mergeFields pass) f f) ↔ f.Complete :=
  ⟨Field.complete_of_covers_self ht, fun h => h.absorbs ht f f (.refl f) (.refl f)⟩

end SelectionModel
