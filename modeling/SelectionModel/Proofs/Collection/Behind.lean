import SelectionModel.Proofs.Collection.Kept
import SelectionModel.Proofs.Covering

/-!
# The selections behind a model

A model in a built tree is put together from several selections: those of its response
name that stand in place, and those in the fragments that its surroundings were made
from. Behind a model stand all of them, each as it is written.

Whatever these selections are lowered to on their own, the model covers, however often
copies of it were merged and its keys derived.

* `Behind`: the selections behind the models of a tree.
* `Backed`: a model covers what selections are lowered to.
* `Behind.backed`: **a model covers what each of the selections behind it is lowered
  to.**
-/

namespace SelectionModel

/-! ## Selections behind models -/

/-- The type conditions that a fragment stands for. -/
def Fragment.typeConditions : Fragment → List String
  | .interface i => [i.typeCondition]
  | .implementation m => m.typeConditions

/-- Selections are drawn on for some type conditions: the surroundings themselves, and
those along each occurrence on one of the type conditions. -/
def DrawsOn (registry : Registry) (typeConditions : List String) (s v : TypedSelections) : Prop :=
  v = s ∨ ∃ path u, Occurs registry s path u ∧ u.type ∈ typeConditions ∧ v ∈ path

/-- **The selections that a fragment of a model has fields from**: those of the model,
and those along each occurrence on a type condition that the fragment stands for. -/
def Fragment.Draws (registry : Registry) (g : Fragment) (s v : TypedSelections) : Prop :=
  DrawsOn registry g.typeConditions s v

/-- **Selections stand behind a model of a tree.** Below the root, these are the
selections below a response name, in what the field of that name is drawn from. -/
inductive Behind (schema : Schema) (registry : Registry) (root : Model) (start : TypedSelections) :
    Model → TypedSelections → Prop where
  | root : Behind schema registry root start root start
  | own {m : Model} {s t : TypedSelections} {f : Field} :
    Behind schema registry root start m s → f ∈ m.fields →
    s.below? schema f.responseName = some t → Behind schema registry root start f.model t
  | fragment {m : Model} {s v t : TypedSelections} {g : Fragment} {f : Field} :
    Behind schema registry root start m s → g ∈ m.fragments → f ∈ g.fields →
    g.Draws registry s v → v.below? schema f.responseName = some t →
    Behind schema registry root start f.model t

/-! ## What selections are lowered to -/

variable {pass : Pass} {registry : Registry}

/-- A model covers what selections are lowered to at some place. -/
def Backed (pass : Pass) (registry : Registry) (m : Model) (s : TypedSelections) : Prop :=
  ∃ (place : Place) (below : Selected) (fields : List Field) (fragments : List Fragment),
    below.typed place.type = s ∧ LowersPlace pass registry place below fields fragments ∧
      CoversFields m.fields fields ∧
      CoversInterfaces (interfacesIn m.fragments) (interfacesIn fragments)

/-- What is backed by selections serves them, and an interface of it serves those along
an occurrence on its type condition. -/
theorem Backed.exists_interface {m : Model} {s : TypedSelections} (h : Backed pass registry m s) :
    Serves pass registry Field.Covers m.fields s ∧ ∀ path u, Occurs registry s path u →
      ∃ i ∈ interfacesIn m.fragments, i.typeCondition = u.type ∧
        ∀ v ∈ path, Serves pass registry Field.Covers i.fields v := by
  have hcovers := enlarges_covers pass
  obtain ⟨place, below, fields, fragments, rfl, ⟨hf, hg⟩, hcf, hci⟩ := h
  refine ⟨hf.serves.of_supplies hcovers hcf, ?_⟩
  rintro - - ⟨o, ho, rfl, rfl⟩
  obtain ⟨i, hi, hio⟩ := hg.exists_interface ho
  obtain ⟨j, hj, hji⟩ := coversInterfaces_mergeInterfaces hcovers.grows _ i hi
  rw [interfacesIn_assemble] at hci
  obtain ⟨l, hl, hlj⟩ := hci j hj
  have hli := hlj.trans hji
  refine ⟨l, hl, hli.typeCondition.trans hio.typeCondition, fun v hv => ?_⟩
  exact (hio.serves hcovers v hv).of_supplies hcovers hli.fields

/-! ## Models of built trees -/

/-- **What is known of a model in a built tree**: nothing stands twice right below it,
its fragments cover it, and so at every depth. -/
structure Model.Orderly (m : Model) : Prop where
  names : DistinctNames m.fields m.fragments
  typeConditions : ((interfacesIn m.fragments).map Interface.typeCondition).Nodup
  covered : FragmentsCover m.fields m.fragments
  below : ∀ f ∈ subfieldsOf m.fields m.fragments,
    f.Everywhere Field.Tidy ∧ f.Everywhere Field.FragmentsCover

theorem Field.orderly {f : Field} (ht : f.Everywhere Field.Tidy)
    (hc : f.Everywhere Field.FragmentsCover) : f.model.Orderly := by
  obtain ⟨ht, htb⟩ := Field.everywhere_iff.1 ht
  obtain ⟨hc, hcb⟩ := Field.everywhere_iff.1 hc
  exact ⟨ht.names, ht.typeConditions, hc, fun c h => ⟨htb c h, hcb c h⟩⟩

theorem LowersPlace.orderly {place : Place} {s : Selected} {fields : List Field}
    {fragments : List Fragment} (h : LowersPlace pass registry place s fields fragments) :
    (⟨place.type, fields, fragments⟩ : Model).Orderly :=
  ⟨h.distinctNames, h.distinct_typeConditions, h.fragmentsCover, fun c hc =>
    ⟨tidy_invariant.forall_subfields h c hc, fragmentsCover_invariant.forall_subfields h c hc⟩⟩

theorem Model.Orderly.withDerivedKeys {m : Model} (h : m.Orderly)
    (derive : SelectionKey → List SelectionKey) :
    (⟨m.type, m.fields.map (Field.withDerivedKeys derive),
      m.fragments.map (Fragment.withDerivedKeys derive)⟩ : Model).Orderly where
  names := h.names.withDerivedKeys derive
  typeConditions := by
    rw [interfacesIn_withDerivedKeys, List.map_map]
    exact h.typeConditions
  covered := h.covered.withDerivedKeys derive
  below := by
    have ht := keptByKeys_tidy.forall_map derive fun f hf => (h.below f hf).1
    have hcov := keptByKeys_fragmentsCover.forall_map derive fun f hf => (h.below f hf).2
    rw [subfieldsOf_withDerivedKeys]
    exact fun c hc => ⟨ht c hc, hcov c hc⟩

/-- The fields of a fragment serve all selections that it draws on. -/
theorem Model.Orderly.serves {m : Model} (h : m.Orderly) {s v : TypedSelections}
    (hb : Backed pass registry m s) {g : Fragment} (hg : g ∈ m.fragments)
    (hv : g.Draws registry s v) : Serves pass registry Field.Covers g.fields v := by
  obtain ⟨hown, hinner⟩ := hb.exists_interface
  rcases hv with rfl | ⟨path, u, hu, ht, hv⟩
  · exact hown.of_supplies (enlarges_covers pass) (h.covered.own g hg)
  obtain ⟨i, hi, he, hbi⟩ := hinner path u hu
  refine (hbi v hv).of_supplies (enlarges_covers pass) ?_
  -- the interface is the fragment, or one that the implementation was made from
  cases g with
  | interface j =>
    have hj : j.typeCondition = i.typeCondition := by
      rw [he]
      exact (List.mem_singleton.1 ht).symm
    obtain rfl := List.inj_on_of_nodup_map h.typeConditions (mem_interfacesIn.2 hg) hi hj
    exact .of_subset fun _ h => h
  | implementation j =>
    exact h.covered.interfaces j (mem_implementationsIn.2 hg) i hi (he ▸ ht)

section Behind

variable {root : Model} {start : TypedSelections}

/-- A field of a list without equal names covers what the list has for its name. -/
theorem Serves.backed {fs : List Field} {v t : TypedSelections}
    (h : Serves pass registry Field.Covers fs v) (hn : (fs.map Field.responseName).Nodup)
    {f : Field} (hf : f ∈ fs) (ht : v.below? pass.schema f.responseName = some t) :
    Backed pass registry f.model t := by
  obtain ⟨g, hg, he, c, place, below, hc, hb, hl⟩ := h _ (TypedSelections.selects_of_below ht)
  obtain rfl := List.inj_on_of_nodup_map hn hg hf he
  exact ⟨place, below, c.fields, c.fragments, Option.some.inj (hb.symm.trans ht), hl, hc.fields,
    hc.interfaces⟩

/-- **A model covers what each of the selections behind it is lowered to**, if the root
does. -/
theorem Behind.backed {m : Model} {s : TypedSelections}
    (h : Behind pass.schema registry root start m s) (ho : root.Orderly)
    (hr : Backed pass registry root start) : m.Orderly ∧ Backed pass registry m s := by
  induction h with
  | root => exact ⟨ho, hr⟩
  | own _ hf ht ih =>
    obtain ⟨hm, hb⟩ := ih
    obtain ⟨htidy, hcov⟩ := hm.below _ (mem_subfieldsOf.2 (.inl hf))
    exact ⟨Field.orderly htidy hcov, hb.exists_interface.1.backed hm.names.own hf ht⟩
  | fragment _ hg hf hv ht ih =>
    obtain ⟨hm, hb⟩ := ih
    obtain ⟨htidy, hcov⟩ := hm.below _ (mem_subfieldsOf.2 (.inr ⟨_, hg, hf⟩))
    exact ⟨Field.orderly htidy hcov,
      (hm.serves hb hg hv).backed (hm.names.fragment _ hg) hf ht⟩

end Behind

end SelectionModel
