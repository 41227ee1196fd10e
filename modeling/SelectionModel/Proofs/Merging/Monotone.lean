import SelectionModel.Proofs.Matching
import SelectionModel.Proofs.Merging.Covering
import SelectionModel.Proofs.Names

/-!
# Merging is monotone

When what is merged is covered by what is merged elsewhere, the results cover each
other as well. It does not suffice that every field is covered: a field may cover two
others without covering what they are merged to, because merging has interfaces take
over more. So the fields of one name must be matched in order, each by one of its own.

* `covers_mergeFieldPair`: one pair, given that merging is monotone one level down.
* `coversFields_mergeFields`, `coversInterfaces_of_forall₂`: **merged fields and merged
  interfaces.**
-/

namespace SelectionModel

variable {pass : Pass} {n : Nat}

/-! ## Tidy fields -/

/-- **Nothing stands twice** in a list of fields: no response name in it, and at every
depth below neither a name in a list of fields nor a type condition. -/
structure TidyFields (fs : List Field) : Prop where
  names : (fs.map Field.responseName).Nodup
  tidy : ∀ f ∈ fs, f.Everywhere Field.Tidy

/-- A field is tidy at every depth and nested at most so deep. -/
def Field.TidyTo (n : Nat) (f : Field) : Prop := f.depth ≤ n ∧ f.Everywhere Field.Tidy

/-- Tidy fields that are nested at most so deep. -/
structure TidyFieldsTo (n : Nat) (fs : List Field) : Prop where
  names : (fs.map Field.responseName).Nodup
  tidy : ∀ f ∈ fs, f.TidyTo n

theorem TidyFields.upTo {fs : List Field} (h : TidyFields fs) (hn : fieldsDepth fs ≤ n) :
    TidyFieldsTo n fs :=
  ⟨h.names, fun f hf => ⟨fieldsDepth_le.1 hn f hf, h.tidy f hf⟩⟩

theorem keeps_tidyTo : Keeps (mergeFields pass) (Field.TidyTo n) :=
  keeps_everywhere_at (fun _ _ _ _ => keptByKeys_tidy.inherited _)
    (fun a b _ _ => tidy_mergeFieldPair a b) n

theorem keptByInheritance_tidyTo : KeptByInheritance (Field.TidyTo n) :=
  fun _ _ f h => ⟨keptByKeys_depth n _ f h.1, keptByKeys_tidy.everywhere _ f h.2⟩

namespace Field.TidyTo

variable {f : Field}

theorem root (h : f.TidyTo n) : f.Tidy := (Field.everywhere_iff.1 h.2).1

theorem subfields (h : f.TidyTo (n + 1)) : ∀ c ∈ f.subfields, c.TidyTo n :=
  fun c hc => ⟨Field.depth_le_succ.1 h.1 c hc, (Field.everywhere_iff.1 h.2).2 c hc⟩

theorem fields (h : f.TidyTo (n + 1)) : TidyFieldsTo n f.fields :=
  ⟨h.root.names.own, (Field.forall_of_subfields h.subfields).1⟩

theorem interfaces (h : f.TidyTo (n + 1)) :
    ∀ i ∈ interfacesIn f.fragments, TidyFieldsTo n i.fields := fun i hi =>
  ⟨h.root.names.fragment _ (mem_interfacesIn.1 hi), (Field.forall_of_subfields h.subfields).2 i hi⟩

theorem mergeFieldPair {a b : Field} (ha : a.TidyTo (n + 1)) (hb : b.TidyTo (n + 1)) :
    (mergeFieldPair pass (mergeFields pass) a b).TidyTo (n + 1) := by
  have hsub : ∀ c ∈ (SelectionModel.mergeFieldPair pass (mergeFields pass) a b).subfields,
      c.TidyTo n :=
    forall_subfields_mergeFieldPair keeps_tidyTo (keptByInheritance_tidyTo _) ha.subfields
      hb.subfields
  rw [TidyTo, depth_le_succ, everywhere_iff]
  exact ⟨fun c hc => (hsub c hc).1, tidy_mergeFieldPair a b, fun c hc => (hsub c hc).2⟩

end Field.TidyTo

namespace TidyFieldsTo

variable {fs gs : List Field}

theorem mergeFields (hf : TidyFieldsTo n fs) (hg : TidyFieldsTo n gs) :
    TidyFieldsTo n (mergeFields pass (fs ++ gs)) where
  names := nodup_names_mergeFields _
  tidy := keeps_tidyTo _ (List.forall_mem_append.2 ⟨hf.tidy, hg.tidy⟩)

theorem inheritFields (h : TidyFieldsTo n fs) (keys : OrderedSet SelectionKey)
    (typeCondition : String) :
    TidyFieldsTo n (inheritFields fs (rebasedKeys keys typeCondition)) where
  names := by
    rw [inheritFields_eq_map, map_responseName_withDerivedKeys]
    exact h.names
  tidy := forall_fields_inherit (keptByInheritance_tidyTo _) h.tidy

end TidyFieldsTo

/-- A tidy field is covered. -/
def Field.TidyCovered (n : Nat) (f g : Field) : Prop := f.TidyTo n ∧ g.Covers f

/-- An interface with tidy fields is covered. -/
def Interface.TidyCovered (n : Nat) (i j : Interface) : Prop := TidyFieldsTo n i.fields ∧ j.Covers i

/-- Tidy fields with distinct names are matched by any that cover them. -/
theorem TidyFieldsTo.matched {fs gs : List Field} (hf : TidyFieldsTo n fs)
    (h : CoversFields gs fs) : MatchedBy Field.responseName (Field.TidyCovered n) fs gs := by
  refine .of_nodup hf.names fun f hfs => ?_
  obtain ⟨g, hgs, hgf⟩ := h f hfs
  exact ⟨g, hgs, hgf.responseName, hf.tidy f hfs, hgf⟩

/-- The interfaces of a tidy field are matched by any that cover them. -/
theorem Field.TidyTo.matched {f : Field} (hf : f.TidyTo (n + 1)) {js : List Interface}
    (h : CoversInterfaces js (interfacesIn f.fragments)) :
    MatchedBy Interface.typeCondition (Interface.TidyCovered n) (interfacesIn f.fragments) js := by
  refine .of_nodup hf.root.typeConditions fun i hi => ?_
  obtain ⟨j, hj, hji⟩ := h i hi
  exact ⟨j, hj, hji.typeCondition, hf.interfaces i hi, hji⟩

/-! ## One level of merging -/

/-- What is merged from tidy fields up to a bound on their depth is covered by what is
merged from fields that match them. -/
def MonotoneTo (pass : Pass) (n : Nat) : Prop :=
  ∀ fs gs, MatchedBy Field.responseName (Field.TidyCovered n) fs gs →
    CoversFields (mergeFields pass gs) (mergeFields pass fs)

section Level

variable (hm : MonotoneTo pass n)

include hm

theorem coversFields_mergeAppend {fs fs' gs gs' : List Field} (hf : TidyFieldsTo n fs)
    (hf' : TidyFieldsTo n fs') (h : CoversFields gs fs) (h' : CoversFields gs' fs') :
    CoversFields (mergeFields pass (gs ++ gs')) (mergeFields pass (fs ++ fs')) :=
  hm _ _ ((hf.matched h).append (hf'.matched h'))

theorem tidyCovered_mergeInterfacePair {i i' j j' : Interface} (h : i.TidyCovered n j)
    (h' : i'.TidyCovered n j') :
    (mergeInterfacePair (mergeFields pass) i i').TidyCovered n
      (mergeInterfacePair (mergeFields pass) j j') := by
  obtain ⟨hi, hji⟩ := h
  obtain ⟨hi', hji'⟩ := h'
  exact ⟨hi.mergeFields hi', ⟨hji.typeCondition, OrderedSet.union_mono hji.keys hji'.keys,
    extendConditions_mono hji.conditions hji'.conditions,
    coversFields_mergeAppend hm hi hi' hji.fields hji'.fields⟩⟩

/-- **Merged interfaces cover those that are merged from matched ones.** -/
theorem tidyCovered_of_matched {is js : List Interface}
    (h : MatchedBy Interface.typeCondition (Interface.TidyCovered n) is js) :
    ∀ i ∈ mergeInterfaces (mergeFields pass) is,
      ∃ j ∈ mergeInterfaces (mergeFields pass) js, i.TidyCovered n j := by
  intro i hi
  obtain ⟨g, hg, rfl⟩ := List.mem_map.1 hi
  obtain ⟨g', hg', -, hgg⟩ := h.exists_group hg
  have hc := (enlarges_covers pass).grows
  refine ⟨_, List.mem_map_of_mem hg', ?_⟩
  refine foldl_related (q := fun j => j.typeCondition = g'.key)
    (g := mergeInterfacePair (mergeFields pass)) (fun _ _ ha _ => ha)
    (fun _ _ _ _ _ _ => tidyCovered_mergeInterfacePair hm) (fun i j j' _ _ h => ?_)
    (fun i j j' hj hj' h => ?_) (fun j hj => ((mem_members_iff hg').1 hj).2) hgg
  · exact ⟨h.1, (mergeInterfacePair_covers_left hc j j').trans h.2⟩
  · exact ⟨h.1, (mergeInterfacePair_covers_right hc (hj.trans hj'.symm)).trans h.2⟩

/-- An interface that takes over the fields of its selection covers one that takes over
what these cover. -/
theorem coverFields_covers_coverFields {i j : Interface} (h : i.TidyCovered n j)
    {fs gs : List Field} (hf : TidyFieldsTo n fs) (hg : CoversFields gs fs)
    {keys keys' : OrderedSet SelectionKey} (hk : ∀ k ∈ keys, k ∈ keys') :
    (coverFields (mergeFields pass) gs keys' j).Covers
      (coverFields (mergeFields pass) fs keys i) where
  typeCondition := h.2.typeCondition
  keys := h.2.keys
  conditions := h.2.conditions
  fields := by
    rw [coverFields, coverFields, h.2.typeCondition]
    exact coversFields_mergeAppend hm (hf.inheritFields _ _) h.1 (hg.inheritFields hk _) h.2.fields

/-- **A merged pair covers one that is merged from covered fields.** -/
theorem covers_mergeFieldPair {a a' b b' : Field} (ha : a.TidyTo (n + 1)) (ha' : a'.TidyTo (n + 1))
    (h : b.Covers a) (h' : b'.Covers a') :
    (mergeFieldPair pass (mergeFields pass) b b').Covers
      (mergeFieldPair pass (mergeFields pass) a a') := by
  have hk : ∀ k ∈ a.keys.union a'.keys, k ∈ b.keys.union b'.keys :=
    OrderedSet.union_mono h.keys h'.keys
  have hf := coversFields_mergeAppend hm ha.fields ha'.fields h.fields h'.fields
  rw [Field.covers_iff, interfacesIn_mergeFieldPair, interfacesIn_mergeFieldPair]
  refine ⟨h.responseName, hk, extendConditions_mono h.conditions h'.conditions, hf, ?_⟩
  -- the interfaces of both are merged, and then take over the merged fields
  have hmatched := (ha.matched h.interfaces).append (ha'.matched h'.interfaces)
  rw [← interfacesIn_append, ← interfacesIn_append] at hmatched
  intro i hi
  obtain ⟨i, hmem, rfl⟩ := List.mem_map.1 hi
  obtain ⟨j, hj, hij⟩ := tidyCovered_of_matched hm hmatched i hmem
  refine ⟨_, List.mem_map_of_mem hj, ?_⟩
  exact coverFields_covers_coverFields hm hij (ha.fields.mergeFields ha'.fields) hf hk

theorem tidyCovered_mergeFieldPair {a a' b b' : Field} (h : a.TidyCovered (n + 1) b)
    (h' : a'.TidyCovered (n + 1) b') :
    (mergeFieldPair pass (mergeFields pass) a a').TidyCovered (n + 1)
      (mergeFieldPair pass (mergeFields pass) b b') :=
  ⟨h.1.mergeFieldPair h'.1, covers_mergeFieldPair hm h.1 h'.1 h.2 h'.2⟩

end Level

/-! ## All levels -/

theorem monotoneTo (pass : Pass) (n : Nat) : MonotoneTo pass n := by
  induction n with
  | zero =>
    -- there is no field without depth
    intro fs gs h f hf
    have hn : f.responseName ∈ fs.map Field.responseName :=
      mem_names_mergeFields.1 (List.mem_map_of_mem hf)
    obtain ⟨a, ha, -⟩ := List.mem_map.1 hn
    obtain ⟨b, -, -, hab⟩ := h.exists_of_mem ha
    exact absurd a.depth_pos (Nat.not_lt.2 hab.1.1)
  | succ n ih =>
    intro fs gs h f hf
    rw [mergeFields_eq] at hf ⊢
    obtain ⟨g, hg, rfl⟩ := List.mem_map.1 hf
    obtain ⟨g', hg', -, hgg⟩ := h.exists_group hg
    have hc := (enlarges_covers pass).grows
    -- along both folds the fields merged so far stay tidy, covered and of one name
    have hfold : Field.TidyCovered (n + 1)
        (g.others.foldl (mergeFieldPair pass (mergeFields pass)) g.first)
        (g'.others.foldl (mergeFieldPair pass (mergeFields pass)) g'.first) := by
      refine foldl_related (q := fun f => f.responseName = g'.key)
        (g := mergeFieldPair pass (mergeFields pass)) (fun _ _ ha _ => ha)
        (fun _ _ _ _ _ _ => tidyCovered_mergeFieldPair ih) (fun a b b' _ _ h => ?_)
        (fun a b b' hb hb' h => ?_) (fun f hf => ((mem_members_iff hg').1 hf).2) hgg
      · exact ⟨h.1, (mergeFieldPair_covers_left hc b b').trans h.2⟩
      · exact ⟨h.1, (mergeFieldPair_covers_right hc (hb.trans hb'.symm)).trans h.2⟩
    exact ⟨_, List.mem_map_of_mem hg', hfold.2⟩

/-- **Merged fields cover those that are merged from covered ones**, of which no two in
either list have the same name. -/
theorem coversFields_mergeFields {fs fs' gs gs' : List Field} (hf : TidyFields fs)
    (hf' : TidyFields fs') (h : CoversFields gs fs) (h' : CoversFields gs' fs') :
    CoversFields (mergeFields pass (gs ++ gs')) (mergeFields pass (fs ++ fs')) :=
  coversFields_mergeAppend (monotoneTo pass (max (fieldsDepth fs) (fieldsDepth fs')))
    (hf.upTo (Nat.le_max_left _ _)) (hf'.upTo (Nat.le_max_right _ _)) h h'

/-- **Merged interfaces cover those that are merged from covered ones**, in order. -/
theorem coversInterfaces_of_forall₂ {is js ls : List Interface}
    (hi : ∀ i ∈ is, TidyFields i.fields) (h : List.Forall₂ (fun i j => j.Covers i) is js)
    (hs : js.Sublist ls) :
    CoversInterfaces (mergeInterfaces (mergeFields pass) ls)
      (mergeInterfaces (mergeFields pass) is) := by
  have hd : ∀ i ∈ is, TidyFieldsTo (fragmentsDepth (is.map .interface)) i.fields := fun i his =>
    (hi i his).upTo (fragmentsDepth_le.1 (Nat.le_refl _) (.interface i) (List.mem_map_of_mem his))
  have hm : MatchedBy Interface.typeCondition
      (Interface.TidyCovered (fragmentsDepth (is.map .interface))) is ls :=
    .of_forall₂ (fun i j hij => hij.2.typeCondition.symm)
      ((List.forall₂_and_left _ _).2 ⟨hd, h⟩) hs
  intro i his
  obtain ⟨j, hj, hij⟩ := tidyCovered_of_matched (monotoneTo pass _) hm i his
  exact ⟨j, hj, hij.2⟩

end SelectionModel
