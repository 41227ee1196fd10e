import SelectionModel.Proofs.Conditions
import SelectionModel.Proofs.Lowering.Narrowing

/-!
# Interfaces are the fragments that occur

Lowering walks in pre-order through the fragments that occur at a place. Each gives an
interface, and those of one type condition are merged.

* `KeyAlong`: the keys that an occurrence has.
* `InterfaceOf.mem_keys`: **the keys of the interface of one occurrence.**
* `interfaces_of_occurrences`: **the interfaces at a place.**
-/

namespace SelectionModel

variable {registry : Registry}

/-! ## Keys along an occurrence -/

/-- The key goes on by the type conditions of some fragments. -/
def SelectionKey.along (k : SelectionKey) (path : List OccurringFragment) : SelectionKey :=
  { k with path := k.path ++ path.map fun x => capitalize x.inside.type }

theorem SelectionKey.along_cons (k : SelectionKey) (x : OccurringFragment)
    (path : List OccurringFragment) : k.along (x :: path) = (k.along [x]).along path := by
  simp [along]

/-- The fragment is a spread of the definition of a name. -/
def OccurringFragment.IsSpread (x : OccurringFragment) (name : String) : Prop :=
  x.fragment.target = .definition name

/-- **A key along some fragments**, each in the one before: a key of the site goes on by
all of them, the root of a spread among them by those in it. -/
def KeyAlong (keys : OrderedSet SelectionKey) (path : List OccurringFragment) (k : SelectionKey) :
    Prop :=
  (∃ start ∈ keys, k = start.along path) ∨
    ∃ (before : List OccurringFragment) (x : OccurringFragment) (after : List OccurringFragment)
      (name : String), path = before ++ x :: after ∧ x.IsSpread name ∧
        k = (SelectionKey.ofRoot .fragment (capitalize name)).along after

section Keys

variable {keys keys' : OrderedSet SelectionKey} {x : OccurringFragment}
  {path : List OccurringFragment} {k : SelectionKey}

theorem keyAlong_singleton :
    KeyAlong keys [x] k ↔ (∃ start ∈ keys, k = start.along [x]) ∨
      ∃ name, x.IsSpread name ∧ k = .ofRoot .fragment (capitalize name) := by
  refine or_congr_right ⟨?_, ?_⟩
  · rintro ⟨before, y, after, name, he, hs, rfl⟩
    rcases List.cons_eq_append_iff.1 he with ⟨-, hy⟩ | ⟨before, -, hnil⟩
    · obtain ⟨rfl, rfl⟩ := List.cons.inj hy
      exact ⟨name, hs, by simp [SelectionKey.along]⟩
    · simp at hnil
  · rintro ⟨name, hs, rfl⟩
    exact ⟨[], x, [], name, rfl, hs, by simp [SelectionKey.along]⟩

/-- The keys along the fragments in a fragment go on from those of the fragment. -/
theorem keyAlong_cons (h : ∀ l, l ∈ keys' ↔ KeyAlong keys [x] l) :
    KeyAlong keys' path k ↔ KeyAlong keys (x :: path) k := by
  simp only [keyAlong_singleton] at h
  constructor
  · rintro (⟨start, hs, rfl⟩ | ⟨before, y, after, name, rfl, hy, rfl⟩)
    · rcases (h start).1 hs with ⟨first, hf, rfl⟩ | ⟨name, hx, rfl⟩
      · exact .inl ⟨first, hf, (first.along_cons x path).symm⟩
      · exact .inr ⟨[], x, path, name, rfl, hx, rfl⟩
    · exact .inr ⟨x :: before, y, after, name, rfl, hy, rfl⟩
  · rintro (⟨first, hf, rfl⟩ | ⟨before, y, after, name, he, hy, rfl⟩)
    · exact .inl ⟨first.along [x], (h _).2 (.inl ⟨first, hf, rfl⟩), first.along_cons x path⟩
    · rcases List.cons_eq_append_iff.1 he with ⟨-, hx⟩ | ⟨before, -, hp⟩
      · obtain ⟨rfl, rfl⟩ := List.cons.inj hx
        exact .inl ⟨_, (h _).2 (.inr ⟨name, hy, rfl⟩), rfl⟩
      · exact .inr ⟨before, y, after, name, hp, hy, rfl⟩

end Keys

/-! ## One interface for each occurrence -/

variable {pass : Pass} {around : Enclosing} {s : Selected}

/-- A fragment has a name exactly when it is entered through a spread. -/
theorem name_of_enter {type name : String} {f : SelectedFragment}
    {e : EnteredFragment} (h : enter registry s type f = .ok e) :
    e.name = some name ↔ f.target = .definition name := by
  obtain ⟨condition, selections, ht, rfl⟩ | ⟨name', d, ht, hd, -, rfl⟩ := enter_eq_ok.1 h
  · simp [ht]
  · simp [ht, Registry.name_of_get? hd]

theorem LowersFragment.mem_keys {x : OccurringFragment} {i : Interface} {inside : Selected}
    (h : LowersFragment pass registry around s x i inside) (k : SelectionKey) :
    k ∈ i.keys ↔ KeyAlong around.keys [x] k := by
  obtain ⟨-, -, he, -⟩ := h
  rw [EnteredFragment.lowered, mem_fragmentKeys, keyAlong_singleton]
  simp only [name_of_enter he, eq_comm]
  rfl

/-- **The keys of an interface are those along its occurrence.** -/
theorem InterfaceOf.mem_keys {o : Occurrence} {i : Interface}
    (h : InterfaceOf pass registry around s o i) (k : SelectionKey) :
    k ∈ i.keys ↔ KeyAlong around.keys o.path k := by
  induction h with
  | here hl => exact hl.mem_keys k
  | inside hl _ ih => exact ih.trans (keyAlong_cons hl.mem_keys)

/-! ## Merged interfaces -/

theorem applies_insides {schema : Schema} {object : String} {o : Occurrence} :
    Applies schema object o.insides ↔ ∀ x ∈ o.path, object ∈ schema.possibleTypes x.inside.type :=
  List.forall_mem_map

/-- **Interfaces are the fragments that occur.** One stands for each type condition, in the
order of the walk. It has the object types that satisfy the type, and all type conditions
along one of the occurrences that it is merged from, and the keys along all of these. -/
theorem interfaces_of_occurrences {place : Place} {s : Selected} {fields : List Field}
    {fragments : List Fragment} (h : lowerPlace pass registry place s = .ok (fields, fragments)) :
    ∃ walk, PreOrder registry ((s.typed place.type).occurring registry) walk ∧
      (interfacesIn fragments).map Interface.typeCondition =
        (OrderedSet.ofList (walk.map Occurrence.type)).toList ∧
      ∀ j ∈ interfacesIn fragments,
        (∀ object, object ∈ j.possibleTypes ↔ ∃ o ∈ walk, o.type = j.typeCondition ∧
          object ∈ pass.schema.possibleTypes place.type ∧
          ∀ x ∈ o.path, object ∈ pass.schema.possibleTypes x.inside.type) ∧
        ∀ k, k ∈ j.keys ↔ ∃ o ∈ walk, o.type = j.typeCondition ∧ KeyAlong place.keys o.path k := by
  obtain ⟨-, hl⟩ := lowersPlace_of_ok h
  obtain ⟨parts, rfl, hw⟩ := hl.exists_walk fun _ h => h
  have htypes : (parts.map Prod.snd).map Interface.typeCondition =
      (parts.map Prod.fst).map Occurrence.type := by
    rw [List.map_map, List.map_map]
    exact List.map_congr_left fun p hp => (hw.related p hp).typeCondition
  refine ⟨parts.map Prod.fst, hw.preOrder, ?_, ?_⟩
  · rw [interfacesIn_assemble, typeConditions_mergeInterfaces, keys_groupBy, htypes]
  rw [interfacesIn_assemble]
  intro j hj
  constructor
  · intro object
    rw [mem_possibleTypes_mergeInterfaces hj]
    refine hw.exists_iff fun o i hi => ?_
    rw [hi.typeCondition, hi.possible_iff, applies_insides]
    rfl
  · intro k
    rw [mergeInterfaces_iff (p := fun i => k ∈ i.keys) (fun _ _ => OrderedSet.mem_union) hj]
    refine hw.exists_iff fun o i hi => ?_
    rw [hi.typeCondition, hi.mem_keys]
    rfl

/-- At the sample the spread is walked through first, with the fragment on `N` in it. -/
theorem sample_interfaces_of_occurrences :
    ∃ fields fragments walk,
      lowerPlace ⟨Sample.schema, true⟩ Sample.registry Sample.nodePlace Sample.node =
        .ok (fields, fragments) ∧
      PreOrder Sample.registry ((Sample.node.typed "N").occurring Sample.registry) walk ∧
      walk.map Occurrence.type = ["A", "N", "B", "N"] ∧
      (interfacesIn fragments).map Interface.typeCondition = ["A", "N", "B"] := by
  obtain ⟨⟨fields, fragments⟩, h, -⟩ := Except.exists_of_any
    (x := lowerPlace ⟨Sample.schema, true⟩ Sample.registry Sample.nodePlace Sample.node)
    (p := fun _ => True) (by decide +kernel)
  obtain ⟨walk, hw, htypes, -⟩ := interfaces_of_occurrences h
  have hwalk := hw.unique (.cons (.cons .nil .nil) (.cons .nil (.cons .nil .nil)))
  have horder : walk.map Occurrence.type = ["A", "N", "B", "N"] := by
    rw [hwalk]
    rfl
  refine ⟨fields, fragments, walk, h, hw, horder, ?_⟩
  rw [htypes, horder]
  rfl

end SelectionModel
