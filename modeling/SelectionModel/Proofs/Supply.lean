import Mathlib.Order.Defs.Unbundled
import SelectionModel.Proofs.Groups

/-!
# Lists that supply others

A list supplies another one when it has something above each element of the other, in the
sense of a preorder. When the elements of each group are folded to one, all of them are
supplied, if the steps go up from both of their arguments.

* `Supplies`: one list supplies another one; this is a preorder as well.
* `supplies_foldGroups`: **what is left of groups supplies what was grouped.**
-/

namespace SelectionModel

/-- **A list supplies another one**: it has an element above each element of the other. -/
def Supplies {α : Type} (R : α → α → Prop) (bs as : List α) : Prop := ∀ a ∈ as, ∃ b ∈ bs, R b a

variable {α : Type} {R : α → α → Prop}

namespace Supplies

variable {as bs cs : List α}

theorem of_subset [IsPreorder α R] (h : ∀ a ∈ as, a ∈ bs) : Supplies R bs as :=
  fun a ha => ⟨a, h a ha, refl_of R a⟩

theorem trans [IsPreorder α R] (hc : Supplies R cs bs) (hb : Supplies R bs as) :
    Supplies R cs as := by
  intro a ha
  obtain ⟨b, hbs, hba⟩ := hb a ha
  obtain ⟨c, hcs, hcb⟩ := hc b hbs
  exact ⟨c, hcs, trans_of R hcb hba⟩

theorem append (ha : Supplies R cs as) (hb : Supplies R cs bs) : Supplies R cs (as ++ bs) :=
  fun c h => (List.mem_append.1 h).elim (ha c) (hb c)

end Supplies

/-- **What is left of groups supplies what was grouped**, if each step goes up from both of
its arguments. -/
theorem supplies_foldGroups [IsPreorder α R] {κ : Type} [DecidableEq κ] (key : α → κ)
    {f : α → α → α} (hk : ∀ a b, key (f a b) = key a) (hl : ∀ a b, R (f a b) a)
    (hr : ∀ a b, key a = key b → R (f a b) b) (l : List α) :
    Supplies R ((groupBy key l).map fun g => g.others.foldl f g.first) l := by
  intro a ha
  obtain ⟨g, hg, -, hm⟩ := exists_group key ha
  refine ⟨_, List.mem_map_of_mem hg, ?_⟩
  -- all elements of the group have one key, which the steps keep
  refine foldl_of_mem_of (p := fun b => R b a) (q := fun b => key b = g.key)
    (fun b c hb _ => (hk b c).trans hb) (fun b c _ _ h => ?_) (fun b c hb hc h => ?_)
    (fun b hb => ((mem_members_iff hg).1 hb).2) hm (refl_of R a)
  · exact trans_of R (hl b c) h
  · exact trans_of R (hr b c (hb.trans hc.symm)) h

end SelectionModel
