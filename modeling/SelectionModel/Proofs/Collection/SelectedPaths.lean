import SelectionModel.Proofs.Collection.ResponsePaths
import SelectionModel.Proofs.Lowering.Growth

/-!
# Response paths of selections

Every response path that selections have is a path of the tree they are lowered to.
Where a fragment is lowered, its interface takes over what is around it, so a path
through fragments in fragments is found in one interface; and the implementation
for an object is made from all interfaces that the object satisfies.

* `Serves.exists_path`: fields that serve selections have the fields to follow for them.
* `LowersPlace.hasPath`: **lowering keeps the response paths of selections.**
-/

namespace SelectionModel

/-- **Selections have a response path**: an object of a possible type collects the
name of its first step, and what is below has the rest. -/
def SelectsPath (schema : Schema) (registry : Registry) :
    List ResponseStep → TypedSelections → Prop
  | [], _ => True
  | step :: path, s => step.object ∈ schema.possibleTypes s.type ∧
    ∃ u, Entered schema registry step.object s u ∧ u.Selects step.name ∧
      (path = [] ∨ ∃ t, u.below? schema step.name = some t ∧ SelectsPath schema registry path t)

section Lowering

variable {pass : Pass} {registry : Registry} {path : List ResponseStep}

/-- Fields that serve selections have one to follow, if what is lowered below has its paths. -/
theorem Serves.exists_path
    (ih : ∀ {place : Place} {s : Selected} {fields : List Field} {fragments : List Fragment},
      LowersPlace pass registry place s fields fragments →
        SelectsPath pass.schema registry path (s.typed place.type) → HasPath path fields fragments)
    {fields : List Field} {u : TypedSelections}
    (h : Serves pass registry Field.Extends fields u) {name : String} (hn : u.Selects name)
    (hp : path = [] ∨
      ∃ t, u.below? pass.schema name = some t ∧ SelectsPath pass.schema registry path t) :
    ∃ f ∈ fields, f.responseName = name ∧ HasPath path f.fields f.fragments := by
  obtain ⟨f, hf, he, g, place, below, hfg, hb, hl⟩ := h name hn
  refine ⟨f, hf, he, hfg.paths path ?_⟩
  rcases hp with rfl | ⟨t, ht, hp⟩
  · trivial
  · obtain rfl := Option.some.inj (hb.symm.trans ht)
    exact ih hl hp

/-- **Lowering keeps the response paths of selections.** -/
theorem LowersPlace.hasPath {place : Place} {s : Selected} {fields : List Field}
    {fragments : List Fragment} (h : LowersPlace pass registry place s fields fragments)
    (hp : SelectsPath pass.schema registry path (s.typed place.type)) :
    HasPath path fields fragments := by
  induction path generalizing place s fields fragments with
  | nil => trivial
  | cons step path ih =>
    -- the induction is on the path: what is below a field has the rest of it
    obtain ⟨hf, hg⟩ := h
    obtain ⟨ho, u, hu, hn, hrest⟩ := hp
    intro offered hoff
    have hgrows := enlarges_extends pass
    have hs := offers_assemble (place.site pass fields) hgrows.grows hoff
    refine hs.exists_path ?_
    -- the name is selected in place, or along an occurrence that applies to the object
    rcases hu.occurs with rfl | ⟨_, _, ⟨o, hso, rfl, -⟩, ha, hu⟩
    · obtain ⟨f, hf, he⟩ := hf.serves.exists_path ih hn hrest
      exact ⟨f, List.mem_append_left _ hf, he⟩
    · obtain ⟨i, hi, hio⟩ := hg.exists_interface hso
      obtain ⟨j, hj, hji⟩ := extends_mergeInterfaces hgrows.grows _ i hi
      have hserves := (hio.serves hgrows u hu).of_supplies hgrows hji.fields
      obtain ⟨f, hf, he⟩ := hserves.exists_path ih hn hrest
      have hobj : step.object ∈ j.possibleTypes :=
        hji.possibleTypes _ (hio.possible_iff.2 ⟨ho, ha⟩)
      refine ⟨f, List.mem_append_right _ (List.mem_flatMap.2 ⟨j, ?_, hf⟩), he⟩
      exact mem_satisfiedBy.2 ⟨hj, hobj⟩

end Lowering

end SelectionModel
