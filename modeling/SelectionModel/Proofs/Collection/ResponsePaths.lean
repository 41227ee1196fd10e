import SelectionModel.Proofs.Merging.Growth

/-!
# Response paths in a tree

A response is read along a path: at each step there is an object of some type, and
the field of one response name on it is followed. A tree has such a path when every
list of fields that it offers for the object has a field to follow.

What a merged field offers goes back to what the two merged ones offer, so a path
is never lost by merging.

* `HasPath`: a tree has a path.
* `enlarges_extends`: **merging keeps paths.**
* `offers_assemble`: what fragments that are put together offer.
-/

namespace SelectionModel

/-- One step of a response path. -/
structure ResponseStep where
  object : String
  name : String

/-- The fields of a selection and of the interfaces that an object satisfies. -/
def sourcesFor (fields : List Field) (interfaces : List Interface) (object : String) : List Field :=
  fields ++ (satisfiedBy interfaces object).flatMap Interface.fields

/-- **The lists of fields for an object**: those it is given by an implementation,
and those that such an implementation is made from. -/
inductive Offers (fields : List Field) (fragments : List Fragment) (object : String) :
    List Field → Prop where
  | sources : Offers fields fragments object (sourcesFor fields (interfacesIn fragments) object)
  | implementation {m : Implementation} : m ∈ implementationsIn fragments →
    object ∈ m.possibleTypes → Offers fields fragments object m.fields

/-- **A selection has a response path.** -/
def HasPath : List ResponseStep → List Field → List Fragment → Prop
  | [], _, _ => True
  | step :: path, fields, fragments => ∀ offered, Offers fields fragments step.object offered →
    ∃ f ∈ offered, f.responseName = step.name ∧ HasPath path f.fields f.fragments

/-- **A field extends another one** of its response name: it has every response path that the
other one has. -/
structure Field.Extends (f g : Field) : Prop where
  responseName : f.responseName = g.responseName
  paths : ∀ path, HasPath path g.fields g.fragments → HasPath path f.fields f.fragments

instance : IsPreorder Field Field.Extends where
  refl _ := ⟨rfl, fun _ hp => hp⟩
  trans _ _ _ hf hg :=
    ⟨hf.responseName.trans hg.responseName, fun path hp => hf.paths path (hg.paths path hp)⟩

/-- **An interface extends another one**: it is for every object that the other one is for,
and its fields have the paths of the other's. -/
structure Interface.Extends (j i : Interface) : Prop where
  possibleTypes : ∀ type ∈ i.possibleTypes, type ∈ j.possibleTypes
  fields : Supplies Field.Extends j.fields i.fields

instance : IsPreorder Interface Interface.Extends where
  refl _ := ⟨fun _ h => h, .of_subset fun _ h => h⟩
  trans _ _ _ hj hi :=
    ⟨fun type h => hj.possibleTypes type (hi.possibleTypes type h), hj.fields.trans hi.fields⟩

/-- A list that supplies another one has the same paths to follow. -/
theorem Supplies.exists_path {fs gs : List Field} (h : Supplies Field.Extends fs gs) {name : String}
    {path : List ResponseStep}
    (hg : ∃ g ∈ gs, g.responseName = name ∧ HasPath path g.fields g.fragments) :
    ∃ f ∈ fs, f.responseName = name ∧ HasPath path f.fields f.fragments := by
  obtain ⟨g, hgs, rfl, hp⟩ := hg
  obtain ⟨f, hfs, he⟩ := h g hgs
  exact ⟨f, hfs, he.responseName, he.paths path hp⟩

/-- **A field extends another one** if what it offers supplies something that the
other one offers. -/
theorem Field.Extends.of_offers {f g : Field} (hn : f.responseName = g.responseName)
    (h : ∀ object fs, Offers f.fields f.fragments object fs →
      ∃ gs, Offers g.fields g.fragments object gs ∧ Supplies Field.Extends fs gs) :
    f.Extends g where
  responseName := hn
  paths := by
    intro path hp
    cases path with
    | nil => trivial
    | cons step path =>
      intro fs hfs
      obtain ⟨gs, hgs, hs⟩ := h step.object fs hfs
      exact hs.exists_path (hp gs hgs)

/-! ## Derived keys -/

section Derived

variable (derive : SelectionKey → List SelectionKey)

theorem exists_offers_withDerivedKeys {fields offered : List Field} {fragments : List Fragment}
    {object : String}
    (h : Offers (fields.map (Field.withDerivedKeys derive))
      (fragments.map (Fragment.withDerivedKeys derive)) object offered) :
    ∃ fs, Offers fields fragments object fs ∧ offered = fs.map (Field.withDerivedKeys derive) := by
  cases h with
  | sources =>
    refine ⟨_, .sources, ?_⟩
    rw [sourcesFor, sourcesFor, interfacesIn_withDerivedKeys, satisfiedBy, List.filter_map,
      List.map_append, List.map_flatMap, List.flatMap_map]
    rfl
  | implementation hm ho =>
    rw [implementationsIn_withDerivedKeys] at hm
    obtain ⟨m, hmem, rfl⟩ := List.mem_map.1 hm
    exact ⟨m.fields, .implementation hmem ho, rfl⟩

/-- **Derived keys leave the paths as they are.** -/
theorem HasPath.withDerivedKeys {path : List ResponseStep} {fields : List Field}
    {fragments : List Fragment} (h : HasPath path fields fragments) :
    HasPath path (fields.map (Field.withDerivedKeys derive))
      (fragments.map (Fragment.withDerivedKeys derive)) := by
  induction path generalizing fields fragments with
  | nil => trivial
  | cons step path ih =>
    -- what is offered was offered before, with fewer keys
    intro offered ho
    obtain ⟨fs, hfs, rfl⟩ := exists_offers_withDerivedKeys derive ho
    obtain ⟨f, hf, hn, hp⟩ := h fs hfs
    refine ⟨_, List.mem_map_of_mem hf, ?_, ?_⟩
    · rw [Field.responseName_withDerivedKeys, hn]
    · rw [Field.fields_withDerivedKeys, Field.fragments_withDerivedKeys]
      exact ih hp

theorem Field.extends_withDerivedKeys (f : Field) : (f.withDerivedKeys derive).Extends f where
  responseName := f.responseName_withDerivedKeys derive
  paths path h := by
    rw [fields_withDerivedKeys, fragments_withDerivedKeys]
    exact h.withDerivedKeys derive

end Derived

/-! ## Merging -/

section Merge

variable {pass : Pass} {merge : List Field → List Field} {is : List Interface}

theorem mergeInterfacePair_extends_left (hm : Grows Field.Extends merge) (a b : Interface) :
    (mergeInterfacePair merge a b).Extends a where
  possibleTypes _ h := OrderedSet.mem_union.2 (.inl h)
  fields := hm.left _ _

theorem mergeInterfacePair_extends_right (hm : Grows Field.Extends merge) (a b : Interface) :
    (mergeInterfacePair merge a b).Extends b where
  possibleTypes _ h := OrderedSet.mem_union.2 (.inr h)
  fields := hm.right _ _

/-- **Merged interfaces extend the interfaces they are merged from.** -/
theorem extends_mergeInterfaces (hm : Grows Field.Extends merge) (is : List Interface) :
    Supplies Interface.Extends (mergeInterfaces merge is) is :=
  supplies_mergeInterfaces (mergeInterfacePair_extends_left hm)
    (fun a b _ => mergeInterfacePair_extends_right hm a b) is

/-- **What fragments that are put together offer** supplies the sources of the
implementation. -/
theorem offers_assemble (site : Site) (hm : Grows Field.Extends merge) {object : String}
    {offered : List Field}
    (h : Offers site.fields (assemble pass merge is site) object offered) :
    Supplies Field.Extends offered (sourcesFor site.fields is object) := by
  cases h with
  | sources =>
    rw [interfacesIn_assemble]
    exact .of_subset fun _ h => h
  | implementation hmem ho =>
    rw [implementationsIn_assemble] at hmem
    split at hmem
    · obtain ⟨-, types, rfl⟩ := eq_implementationOf hmem ho
      exact hm _
    · simp at hmem

/-- The sources of a merged pair supply those of each of the two. -/
theorem supplies_sourcesFor (hm : Grows Field.Extends merge) {a b c : Field}
    (hf : ∀ f ∈ c.fields, f ∈ a.fields ++ b.fields)
    (hg : ∀ g ∈ c.fragments, g ∈ a.fragments ++ b.fragments) (object : String) :
    Supplies Field.Extends
      (sourcesFor (merge (a.fields ++ b.fields)) (pairInterfaces merge a b) object)
      (sourcesFor c.fields (interfacesIn c.fragments) object) := by
  refine .append ?_ ?_
  · refine Supplies.trans ?_ (.of_subset hf)
    exact Supplies.trans (.of_subset fun f h => List.mem_append_left _ h) (hm _)
  · intro f hf
    obtain ⟨i, hi, hf⟩ := List.mem_flatMap.1 hf
    obtain ⟨hi, ho⟩ := mem_satisfiedBy.1 hi
    have hi : i ∈ interfacesIn (a.fragments ++ b.fragments) :=
      mem_interfacesIn.2 (hg _ (mem_interfacesIn.1 hi))
    -- the interface is merged with those of its type condition, then covers the fields
    obtain ⟨j, hj, hji⟩ := extends_mergeInterfaces hm _ i hi
    have hcover : Supplies Field.Extends
        (coverFields merge (merge (a.fields ++ b.fields)) (a.keys.union b.keys) j).fields
        j.fields := hm.right _ _
    obtain ⟨g, hg, he⟩ := hcover.trans hji.fields f hf
    refine ⟨g, List.mem_append_right _ (List.mem_flatMap.2 ⟨_, ?_, hg⟩), he⟩
    exact mem_satisfiedBy.2 ⟨List.mem_map_of_mem hj, hji.possibleTypes object ho⟩

/-- **A merged pair extends each of the two.** -/
theorem extends_mergeFieldPair (hm : Grows Field.Extends merge) {a b c : Field}
    (hn : a.responseName = c.responseName) (hf : ∀ f ∈ c.fields, f ∈ a.fields ++ b.fields)
    (hg : ∀ g ∈ c.fragments, g ∈ a.fragments ++ b.fragments) :
    (mergeFieldPair pass merge a b).Extends c := by
  refine .of_offers hn fun object offered h => ⟨_, .sources, ?_⟩
  exact (offers_assemble (pairSite pass merge a b) hm h).trans
    (supplies_sourcesFor hm hf hg object)

/-- **Merging keeps paths.** -/
theorem enlarges_extends (pass : Pass) : Enlarges pass Field.Extends where
  responseName := Field.Extends.responseName
  derived derive f := f.extends_withDerivedKeys derive
  left hm _ _ := extends_mergeFieldPair hm rfl (fun _ h => List.mem_append_left _ h)
    fun _ h => List.mem_append_left _ h
  right hm _ _ hn := extends_mergeFieldPair hm hn (fun _ h => List.mem_append_right _ h)
    fun _ h => List.mem_append_right _ h

end Merge

end SelectionModel
