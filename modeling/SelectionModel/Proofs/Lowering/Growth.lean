import SelectionModel.Proofs.Lowering.Occurrences
import SelectionModel.Proofs.Merging.Growth

/-!
# Lowering goes up

In every sense in which merging goes up, an interface is above the fields around its
fragment. It is above what the selections along its occurrence are lowered to as well,
since the interface of each fragment takes over those of the fragments around it.

* `InterfaceOf.supplies_around`: an interface takes over the fields around it.
* `Serves`: fields are above what selections are lowered to below each response name.
* `InterfaceOf.serves`: **an interface serves all selections along its occurrence.**
-/

namespace SelectionModel

/-- **Fields serve selections**: for each response name that counts, there is a field of
that name above one with what the selections below the name are lowered to. -/
def Serves (pass : Pass) (registry : Registry) (R : Field → Field → Prop) (fields : List Field)
    (v : TypedSelections) : Prop :=
  ∀ name, v.Selects name → ∃ f ∈ fields, f.responseName = name ∧ ∃ g place below, R f g ∧
    v.below? pass.schema name = some (below.typed place.type) ∧
      LowersPlace pass registry place below g.fields g.fragments

variable {pass : Pass} {registry : Registry} {R : Field → Field → Prop} [IsPreorder Field R]

theorem Serves.of_supplies {fs gs : List Field} {v : TypedSelections}
    (h : Serves pass registry R fs v) (hR : Enlarges pass R) (hs : Supplies R gs fs) :
    Serves pass registry R gs v := by
  intro name hn
  obtain ⟨f, hf, rfl, c, place, below, hfc, hb, hl⟩ := h name hn
  obtain ⟨g, hg, hgf⟩ := hs f hf
  exact ⟨g, hg, hR.responseName hgf, c, place, below, trans_of R hgf hfc, hb, hl⟩

/-- Lowered fields serve their selections. -/
theorem LowersFields.serves {type : String} {keys : OrderedSet SelectionKey} {s : Selected}
    {fields : List Field} (h : LowersFields pass registry type keys s s.groups fields) :
    Serves pass registry R fields (s.typed type) := by
  intro name hn
  obtain ⟨f, hf, he, place, below, hb, hl⟩ := h.exists_below hn
  exact ⟨f, hf, he, f, place, below, refl_of R f, hb, hl⟩

variable {around : Enclosing} {s : Selected} {i : Interface} (hR : Enlarges pass R)

include hR

namespace LowersFragment

variable {inside : Selected} {x : OccurringFragment}
  (h : LowersFragment pass registry around s x i inside)

include h

/-- An interface takes over the fields around its fragment. -/
theorem supplies_around : Supplies R i.fields around.fields := by
  cases h
  exact (hR.grows.left _ _).trans (hR.supplies_inheritFields _ _)

theorem serves : Serves pass registry R i.fields x.inside := by
  obtain ⟨-, -, -, ho⟩ := h
  exact ho.serves.of_supplies hR (hR.grows.right _ _)

end LowersFragment

namespace InterfaceOf

variable {o : Occurrence} (h : InterfaceOf pass registry around s o i)

include h

/-- It takes over the fields around the outermost fragment as well. -/
theorem supplies_around : Supplies R i.fields around.fields := by
  induction h with
  | here hl => exact hl.supplies_around hR
  | inside hl _ ih => exact ih.trans (hl.supplies_around hR)

/-- **An interface serves all selections along its occurrence.** -/
theorem serves : ∀ v ∈ o.insides, Serves pass registry R i.fields v := by
  induction h with
  | here hl =>
    intro v hv
    obtain rfl := List.mem_singleton.1 hv
    exact hl.serves hR
  | inside hl hj ih =>
    intro v hv
    rcases List.mem_cons.1 hv with rfl | hv
    · exact (hl.serves hR).of_supplies hR (hj.supplies_around hR)
    · exact ih v hv

end InterfaceOf

end SelectionModel
