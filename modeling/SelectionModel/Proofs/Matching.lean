import Mathlib.Data.List.Forall2
import SelectionModel.Proofs.Groups

/-!
# Matched lists

One list is matched by another one under a key when, for every key, the elements of
the first list that have it are related in order to elements of the second list that
have it. The second list may have more. Then every group of the first list goes with
a group of the second one, and the folds of both are related if each step keeps the
relation and drops nothing.

* `MatchedBy.append`, `MatchedBy.of_nodup`, `MatchedBy.of_forall₂`: lists that match.
* `MatchedBy.exists_group`: **groups that match.**
* `foldl_related`: the folds of two matching groups.
-/

namespace SelectionModel

open List (SublistForall₂)

variable {κ α : Type} [DecidableEq κ] {key : α → κ} {R : α → α → Prop}

/-- The elements of each key are related in order to some of that key. -/
def MatchedBy (key : α → κ) (R : α → α → Prop) (as bs : List α) : Prop :=
  ∀ k, SublistForall₂ R (as.filter fun a => decide (key a = k))
    (bs.filter fun b => decide (key b = k))

theorem sublistForall₂_append {as bs as' bs' : List α} (h : SublistForall₂ R as bs)
    (h' : SublistForall₂ R as' bs') : SublistForall₂ R (as ++ as') (bs ++ bs') := by
  rw [List.sublistForall₂_iff] at h h' ⊢
  obtain ⟨cs, hcs, hs⟩ := h
  obtain ⟨cs', hcs', hs'⟩ := h'
  exact ⟨cs ++ cs', List.rel_append hcs hcs', hs.append hs'⟩

theorem exists_of_sublistForall₂ {as bs : List α} (h : SublistForall₂ R as bs) {a : α}
    (ha : a ∈ as) : ∃ b ∈ bs, R a b := by
  induction h with
  | nil => cases ha
  | cons hab _ ih =>
    rcases List.mem_cons.1 ha with rfl | ha
    · exact ⟨_, List.mem_cons_self, hab⟩
    · obtain ⟨b, hb, hr⟩ := ih ha
      exact ⟨b, List.mem_cons_of_mem _ hb, hr⟩
  | cons_right _ ih =>
    obtain ⟨b, hb, hr⟩ := ih ha
    exact ⟨b, List.mem_cons_of_mem _ hb, hr⟩

namespace MatchedBy

variable {as bs as' bs' : List α}

theorem append (h : MatchedBy key R as bs) (h' : MatchedBy key R as' bs') :
    MatchedBy key R (as ++ as') (bs ++ bs') := by
  intro k
  rw [List.filter_append, List.filter_append]
  exact sublistForall₂_append (h k) (h' k)

/-- Elements without a key in common are matched by any that are related to them. -/
theorem of_nodup (hn : (as.map key).Nodup) (h : ∀ a ∈ as, ∃ b ∈ bs, key b = key a ∧ R a b) :
    MatchedBy key R as bs := by
  intro k
  by_cases hk : k ∈ as.map key
  · obtain ⟨a, ha, rfl⟩ := List.mem_map.1 hk
    obtain ⟨b, hb, hbk, hr⟩ := h a ha
    rw [filter_key_of_nodup hn ha, List.sublistForall₂_iff]
    refine ⟨[b], .cons hr .nil, List.singleton_sublist.2 ?_⟩
    exact List.mem_filter.2 ⟨hb, decide_eq_true hbk⟩
  · have hz : (as.filter fun a => decide (key a = k)) = [] := by
      rw [List.filter_eq_nil_iff]
      intro a ha
      rw [decide_eq_true_eq]
      exact fun e => hk (e ▸ List.mem_map_of_mem ha)
    rw [hz]
    exact .nil

/-- Lists that are related element by element match, also in a longer list. -/
theorem of_forall₂ (hk : ∀ a b, R a b → key a = key b) (h : List.Forall₂ R as bs)
    (hs : bs.Sublist bs') : MatchedBy key R as bs' := by
  intro k
  rw [List.sublistForall₂_iff]
  refine ⟨bs.filter fun b => decide (key b = k), ?_, hs.filter _⟩
  refine List.rel_filter (fun a b hr => ?_) h
  simp only [decide_eq_true_eq, hk a b hr]

theorem exists_of_mem (h : MatchedBy key R as bs) {a : α} (ha : a ∈ as) :
    ∃ b ∈ bs, key b = key a ∧ R a b := by
  have hmem : a ∈ as.filter fun c => decide (key c = key a) :=
    List.mem_filter.2 ⟨ha, decide_eq_true rfl⟩
  obtain ⟨b, hb, hr⟩ := exists_of_sublistForall₂ (h (key a)) hmem
  obtain ⟨hb, hk⟩ := List.mem_filter.1 hb
  exact ⟨b, hb, of_decide_eq_true hk, hr⟩

/-- **Every group goes with a group that matches it.** -/
theorem exists_group (h : MatchedBy key R as bs) {g : Group κ α} (hg : g ∈ groupBy key as) :
    ∃ g' ∈ groupBy key bs, g'.key = g.key ∧ SublistForall₂ R g.members g'.members := by
  -- the first element of the group is matched, which gives the other group its key
  obtain ⟨hfirst, hk⟩ := (mem_members_iff hg).1 List.mem_cons_self
  obtain ⟨b, hb, hbk, -⟩ := h.exists_of_mem hfirst
  obtain ⟨g', hg', he, -⟩ := SelectionModel.exists_group key hb
  have he : g'.key = g.key := he.trans (hbk.trans hk)
  refine ⟨g', hg', he, ?_⟩
  rw [members_eq_filter hg, members_eq_filter hg', he]
  exact h g.key

end MatchedBy

/-- **Folds of lists that match are related**, if related steps on both sides keep the
relation and so does one more step on the longer side. -/
theorem foldl_related {f g : α → α → α} {q : α → Prop} (hq : ∀ a b, q a → q b → q (g a b))
    (hs : ∀ a a' b b', q a' → q b' → R a a' → R b b' → R (f a b) (g a' b'))
    (hl : ∀ a a' b', q a' → q b' → R a a' → R a (g a' b'))
    (hr : ∀ a a' b', q a' → q b' → R a b' → R a (g a' b')) {a b : α} {as bs : List α}
    (hk : ∀ c ∈ b :: bs, q c) (h : SublistForall₂ R (a :: as) (b :: bs)) :
    R (as.foldl f a) (bs.foldl g b) := by
  induction bs generalizing a as b with
  | nil =>
    cases h with
    | cons hab h => cases h; exact hab
    | cons_right h => cases h
  | cons c bs ih =>
    obtain ⟨hb, hk⟩ := List.forall_mem_cons.1 hk
    obtain ⟨hc, hk⟩ := List.forall_mem_cons.1 hk
    have hk : ∀ d ∈ g b c :: bs, q d := List.forall_mem_cons.2 ⟨hq b c hb hc, hk⟩
    -- the step on the longer side takes the next element, which may match one or none
    cases h with
    | cons hab h =>
      cases h with
      | nil => exact ih hk (.cons (hl _ _ _ hb hc hab) .nil)
      | @cons d _ _ _ hdc h => exact ih (a := f a d) hk (.cons (hs _ _ _ _ hb hc hab hdc) h)
      | cons_right h => exact ih hk (.cons (hl _ _ _ hb hc hab) h)
    | cons_right h =>
      cases h with
      | cons hac h => exact ih hk (.cons (hr _ _ _ hb hc hac) h)
      | cons_right h => exact ih hk (.cons_right h)

end SelectionModel
