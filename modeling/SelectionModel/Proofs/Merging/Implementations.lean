import Mathlib.Data.List.Basic
import Mathlib.Data.List.Nodup
import SelectionModel.Proofs.Merging.Interfaces

/-!
# Implementations of a selection

An implementation stands for the object types of one group, so each of its types
says which interfaces it was made from: those that the type satisfies.

* `eq_implementationOf`: an implementation in terms of any of its types.
* `exists_implementation`: every possible type has an implementation.
* `implementations_disjoint`, `implementations_distinct`: no type has two, and no
  two satisfy the same type conditions.
-/

namespace SelectionModel

/-- The interfaces that an object type satisfies. -/
def satisfiedBy (is : List Interface) (type : String) : List Interface :=
  is.filter fun i => decide (type ∈ i.possibleTypes)

theorem mem_satisfiedBy {is : List Interface} {type : String} {i : Interface} :
    i ∈ satisfiedBy is type ↔ i ∈ is ∧ type ∈ i.possibleTypes := by
  simp [satisfiedBy]

/-- The positions whose elements pass a test lead to these elements. -/
theorem filterMap_positions {α : Type} {p : α → Bool} {q : Nat → Bool} {l : List α}
    (h : ∀ n a, l[n]? = some a → q n = p a) :
    ((List.range l.length).filter q).filterMap (fun n => l[n]?) = l.filter p := by
  induction l using List.reverseRecOn with
  | nil => rfl
  | append_singleton l a ih =>
    -- the positions before the last one lead to the elements of the shorter list
    have hl : ∀ n ∈ List.range l.length, (l ++ [a])[n]? = l[n]? := fun n hn =>
      List.getElem?_append_left (List.mem_range.1 hn)
    have ha : q l.length = p a := h l.length a (by simp)
    rw [List.length_append, List.length_singleton, List.range_succ, List.filter_append,
      List.filterMap_append, List.filter_append]
    congr 1
    · rw [List.filterMap_congr fun n hn => hl n (List.mem_of_mem_filter hn)]
      refine ih fun n b hb => h n b ?_
      rw [hl n (List.mem_range.2 (List.getElem?_eq_some_iff.1 hb).1), hb]
    · cases hp : p a <;> simp [ha, hp]

/-- The positions of the satisfied interfaces lead to these interfaces. -/
theorem filterMap_satisfied (is : List Interface) (type : String) :
    (satisfied is type).filterMap (fun n => is[n]?) = satisfiedBy is type :=
  filterMap_positions fun n i hi => by simp [hi]

/-- Types that satisfy the same interfaces have the same positions. -/
theorem satisfied_congr {is : List Interface} {s t : String}
    (h : ∀ i ∈ is, s ∈ i.possibleTypes ↔ t ∈ i.possibleTypes) :
    satisfied is s = satisfied is t := by
  refine List.filter_congr fun n _ => ?_
  cases hn : is[n]? with
  | none => rfl
  | some i => simp [h i (List.mem_of_getElem? hn)]

variable {merge : List Field → List Field} {is : List Interface} {site : Site}
  {m : Implementation} {type : String}

theorem implementations_nil : implementations merge [] site = [] := rfl

theorem mem_implementations :
    m ∈ implementations merge is site ↔
      is ≠ [] ∧ ∃ g ∈ groupBy (satisfied is) site.possibleTypes.toList,
        m = implementationOf merge site (g.key.filterMap fun n => is[n]?) g.members := by
  rw [implementations]
  cases is with
  | nil => simp
  | cons i is =>
    simp only [List.isEmpty_cons, Bool.false_eq_true, if_false, ne_eq, reduceCtorEq,
      not_false_eq_true, true_and, List.mem_map]
    exact exists_congr fun g => and_congr_right fun _ => eq_comm

theorem mem_possibleTypes_implementationOf {members : List Interface} {types : List String} :
    type ∈ (implementationOf merge site members types).possibleTypes ↔ type ∈ types :=
  OrderedSet.mem_ofList

/-- **An implementation in terms of any of its types**: it is made from the
interfaces that the type satisfies. -/
theorem eq_implementationOf (hm : m ∈ implementations merge is site)
    (ht : type ∈ m.possibleTypes) :
    type ∈ site.possibleTypes ∧
      ∃ types, m = implementationOf merge site (satisfiedBy is type) types := by
  obtain ⟨-, g, hg, rfl⟩ := mem_implementations.1 hm
  rw [mem_possibleTypes_implementationOf] at ht
  obtain ⟨hs, hk⟩ := (mem_members_iff hg).1 ht
  refine ⟨hs, g.members, ?_⟩
  rw [← hk, filterMap_satisfied]

/-- **Every possible type has an implementation**, unless there is no interface. -/
theorem exists_implementation (h : is ≠ []) (ht : type ∈ site.possibleTypes) :
    ∃ m ∈ implementations merge is site, type ∈ m.possibleTypes := by
  obtain ⟨g, hg, -, hm⟩ := exists_group (satisfied is) ht
  exact ⟨_, mem_implementations.2 ⟨h, g, hg, rfl⟩, mem_possibleTypes_implementationOf.2 hm⟩

theorem possibleTypes_ne_nil (hm : m ∈ implementations merge is site) :
    ∃ type, type ∈ m.possibleTypes := by
  obtain ⟨-, g, hg, rfl⟩ := mem_implementations.1 hm
  exact ⟨g.first, mem_possibleTypes_implementationOf.2 List.mem_cons_self⟩

/-- A type of a group satisfies the interfaces of the group. -/
theorem satisfied_of_mem_group {g : Group (List Nat) String}
    (hg : g ∈ groupBy (satisfied is) site.possibleTypes.toList)
    (ht : type ∈
      (implementationOf merge site (g.key.filterMap fun n => is[n]?) g.members).possibleTypes) :
    satisfied is type = g.key :=
  ((mem_members_iff hg).1 (mem_possibleTypes_implementationOf.1 ht)).2

/-- A relation holds between any two implementations when it holds between any
two whose types satisfy different interfaces. -/
theorem pairwise_implementations {R : Implementation → Implementation → Prop}
    (h : ∀ m n, m ∈ implementations merge is site → n ∈ implementations merge is site →
      (∀ s ∈ m.possibleTypes, ∀ t ∈ n.possibleTypes, satisfied is s ≠ satisfied is t) → R m n) :
    (implementations merge is site).Pairwise R := by
  have hmem := @mem_implementations merge is site
  rw [implementations] at h hmem ⊢
  split at h
  · next he => rw [if_pos he]; exact List.Pairwise.nil
  next he =>
  -- the groups have different keys, and the key of a group says what its types satisfy
  rw [if_neg he, List.pairwise_map]
  have hn := List.pairwise_map.1 (keys_nodup_groupBy (satisfied is) site.possibleTypes.toList)
  refine hn.imp_of_mem fun {g g'} hg hg' hne => ?_
  refine h _ _ (List.mem_map_of_mem hg) (List.mem_map_of_mem hg') fun s hs t ht => ?_
  rw [satisfied_of_mem_group hg hs, satisfied_of_mem_group hg' ht]
  exact hne

/-- **No type has two implementations.** -/
theorem implementations_disjoint :
    (implementations merge is site).Pairwise fun m n =>
      ∀ t ∈ m.possibleTypes, t ∉ n.possibleTypes :=
  pairwise_implementations fun _ _ _ _ h t hm hn => h t hm t hn rfl

/-- The type conditions that a type satisfies decide which interfaces it satisfies. -/
theorem satisfied_of_typeConditions (hn : (is.map Interface.typeCondition).Nodup) {s t : String}
    (h : (satisfiedBy is s).map Interface.typeCondition =
      (satisfiedBy is t).map Interface.typeCondition) : satisfied is s = satisfied is t := by
  -- no type condition stands twice, so it stands for its interface
  have key : ∀ u, ∀ i ∈ is, u ∈ i.possibleTypes ↔
      i.typeCondition ∈ (satisfiedBy is u).map Interface.typeCondition := by
    intro u i hi
    constructor
    · exact fun hu => List.mem_map_of_mem (mem_satisfiedBy.2 ⟨hi, hu⟩)
    · intro hu
      obtain ⟨j, hj, he⟩ := List.mem_map.1 hu
      obtain ⟨hj, hu⟩ := mem_satisfiedBy.1 hj
      exact List.inj_on_of_nodup_map hn hj hi he ▸ hu
  exact satisfied_congr fun i hi => by rw [key s i hi, key t i hi, h]

/-- **No two implementations satisfy the same type conditions.** -/
theorem implementations_distinct (hn : (is.map Interface.typeCondition).Nodup) :
    (implementations merge is site).Pairwise fun m n => m.typeConditions ≠ n.typeConditions := by
  refine pairwise_implementations fun m n hm hn' h he => ?_
  obtain ⟨s, hs⟩ := possibleTypes_ne_nil hm
  obtain ⟨t, ht⟩ := possibleTypes_ne_nil hn'
  refine h s hs t ht (satisfied_of_typeConditions hn ?_)
  obtain ⟨-, _, rfl⟩ := eq_implementationOf hm hs
  obtain ⟨-, _, rfl⟩ := eq_implementationOf hn' ht
  exact he

end SelectionModel
