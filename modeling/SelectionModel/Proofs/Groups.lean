import Mathlib.Data.List.Induction
import SelectionModel.Grouping
import SelectionModel.OrderedSet

/-!
# Groups of a list

* `members_eq_filter`: a group has all elements of its key, in the order of the
  list.
* `keys_groupBy`, `mem_keys_groupBy`: the keys of the groups are those of the elements, in
  the order of the first ones.
* `mem_groupBy_append_self`: the groups of a list that is put behind itself.
* `groupBy_map`: a function that keeps keys can be applied before or after
  grouping.
* `foldl_of_mem`, `foldl_of_forall`: what holds of the elements of a group folded.
-/

namespace SelectionModel

variable {κ α β : Type} [DecidableEq κ] {key : α → κ}

@[simp] theorem groupBy_nil : groupBy key [] = [] := rfl

theorem groupBy_concat (l : List α) (a : α) :
    groupBy key (l ++ [a]) = addToGroups (key a) a (groupBy key l) := by
  simp [groupBy]

/-- The keys of the groups are those of the elements. -/
theorem mem_keys_groupBy {l : List α} {k : κ} :
    k ∈ (groupBy key l).map Group.key ↔ k ∈ l.map key := by
  induction l using List.reverseRecOn with
  | nil => simp
  | append_singleton l a ih =>
    rw [groupBy_concat, keys_addToGroups, List.map_append, List.mem_append, ← ih]
    split
    · next h =>
      refine ⟨.inl, fun hk => hk.elim id fun e => ?_⟩
      rw [List.map_singleton, List.mem_singleton] at e
      rwa [e]
    · simp

/-- The keys stand in the order of the first elements. -/
theorem keys_groupBy (key : α → κ) (l : List α) :
    (groupBy key l).map Group.key = (OrderedSet.ofList (l.map key)).toList := by
  induction l using List.reverseRecOn with
  | nil => rfl
  | append_singleton l a ih =>
    have hlast : OrderedSet.ofList ((l ++ [a]).map key) =
        (OrderedSet.ofList (l.map key)).insert (key a) := by
      rw [List.map_append, OrderedSet.ofList, OrderedSet.insertAll_append]
      rfl
    rw [groupBy_concat, keys_addToGroups, ih, hlast, OrderedSet.toList_insert]
    rfl

/-- The groups after an addition: those before it, of which one may have grown,
and perhaps a new one. -/
theorem members_addToGroups {k : κ} {a : α} {gs : List (Group κ α)} {h : Group κ α}
    (hn : (gs.map Group.key).Nodup) (hm : h ∈ addToGroups k a gs) :
    (∃ g ∈ gs, g.key = h.key ∧ h.members = g.members ++ if h.key = k then [a] else []) ∨
      (h.key = k ∧ k ∉ gs.map Group.key ∧ h.members = [a]) := by
  induction gs with
  | nil => simp_all [addToGroups, Group.members]
  | cons g gs ih =>
    obtain ⟨hg, hn⟩ := List.nodup_cons.1 hn
    -- the walk ends at the group of the key, and the groups behind it have other keys
    by_cases hk : g.key = k
    · simp only [addToGroups, if_pos hk, List.mem_cons] at hm
      rcases hm with rfl | hm
      · exact .inl ⟨g, List.mem_cons_self, rfl, by simp [hk, Group.members]⟩
      · have hne : h.key ≠ k := fun e => hg (hk ▸ e ▸ List.mem_map_of_mem hm)
        exact .inl ⟨h, List.mem_cons_of_mem _ hm, rfl, by simp [hne]⟩
    · simp only [addToGroups, if_neg hk, List.mem_cons] at hm
      rcases hm with rfl | hm
      · exact .inl ⟨h, List.mem_cons_self, rfl, by simp [hk]⟩
      rcases ih hn hm with ⟨g', hg', h1, h2⟩ | ⟨h1, h2, h3⟩
      · exact .inl ⟨g', List.mem_cons_of_mem _ hg', h1, h2⟩
      · refine .inr ⟨h1, ?_, h3⟩
        rw [List.map_cons, List.mem_cons, not_or]
        exact ⟨fun e => hk e.symm, h2⟩

/-- **A group has all elements of its key**, in the order of the list. -/
theorem members_eq_filter {l : List α} {g : Group κ α} (h : g ∈ groupBy key l) :
    g.members = l.filter fun a => decide (key a = g.key) := by
  induction l using List.reverseRecOn generalizing g with
  | nil => simp at h
  | append_singleton l a ih =>
    rw [groupBy_concat] at h
    rw [List.filter_append]
    -- the last element ends up in a group that was there, or in a group of its own
    rcases members_addToGroups (keys_nodup_groupBy key l) h with ⟨g', hg, hk, hm⟩ | ⟨hk, hn, hm⟩
    · rw [hm, ih hg, hk]
      congr 1
      by_cases he : key a = g.key
      · simp [he]
      · have hne : g.key ≠ key a := fun e => he e.symm
        simp [he, hne]
    · have hd : l.filter (fun b => decide (key b = g.key)) = [] := by
        rw [List.filter_eq_nil_iff]
        intro b hb
        rw [decide_eq_true_eq, hk]
        exact fun e => hn (mem_keys_groupBy.2 (e ▸ List.mem_map_of_mem hb))
      rw [hm, hd]
      simp [hk]

theorem mem_members_iff {l : List α} {g : Group κ α} {a : α} (h : g ∈ groupBy key l) :
    a ∈ g.members ↔ a ∈ l ∧ key a = g.key := by
  rw [members_eq_filter h, List.mem_filter, decide_eq_true_eq]

theorem exists_group (key : α → κ) {l : List α} {a : α} (h : a ∈ l) :
    ∃ g ∈ groupBy key l, g.key = key a ∧ a ∈ g.members := by
  obtain ⟨g, hg, ha⟩ : ∃ g ∈ groupBy key l, a ∈ g.members := members_groupBy.2 h
  exact ⟨g, hg, ((mem_members_iff hg).1 ha).2.symm, ha⟩

/-- No other element has the key of an element, if no key stands twice. -/
theorem filter_key_of_nodup {l : List α} (hn : (l.map key).Nodup) {a : α} (ha : a ∈ l) :
    (l.filter fun b => decide (key b = key a)) = [a] := by
  induction l with
  | nil => cases ha
  | cons b l ih =>
    obtain ⟨hb, hn⟩ := List.nodup_cons.1 hn
    rcases List.mem_cons.1 ha with rfl | ha
    · have hz : (l.filter fun c => decide (key c = key a)) = [] := by
        rw [List.filter_eq_nil_iff]
        intro c hc
        rw [decide_eq_true_eq]
        exact fun e => hb (e ▸ List.mem_map_of_mem hc)
      rw [List.filter_cons_of_pos (by simp), hz]
    · have hne : key b ≠ key a := fun e => hb (e ▸ List.mem_map_of_mem ha)
      rw [List.filter_cons_of_neg (by simpa using hne), ih hn ha]

/-- A list without a key twice, put behind itself, has groups of two. -/
theorem mem_groupBy_append_self {l : List α} (hn : (l.map key).Nodup) {a : α} (ha : a ∈ l) :
    ⟨key a, a, [a]⟩ ∈ groupBy key (l ++ l) := by
  obtain ⟨⟨k, first, others⟩, hg, rfl, -⟩ := exists_group key (List.mem_append_left l ha)
  have hm : first :: others = [a] ++ [a] := by
    rw [← filter_key_of_nodup hn ha, ← List.filter_append]
    exact members_eq_filter hg
  obtain ⟨rfl, rfl⟩ := List.cons.inj hm
  exact hg

/-- A group with a function applied to its elements. -/
def Group.map (f : α → β) (g : Group κ α) : Group κ β := ⟨g.key, f g.first, g.others.map f⟩

theorem addToGroups_map (f : α → β) (k : κ) (a : α) (gs : List (Group κ α)) :
    addToGroups k (f a) (gs.map (Group.map f)) = (addToGroups k a gs).map (Group.map f) := by
  induction gs with
  | nil => rfl
  | cons g gs ih =>
    by_cases h : g.key = k
    · simp [addToGroups, Group.map, h]
    · simp [addToGroups, Group.map, h, ← ih]

/-- **A function that keeps keys** can be applied before or after grouping. -/
theorem groupBy_map {key' : β → κ} {f : α → β} (hk : ∀ a, key' (f a) = key a) (l : List α) :
    groupBy key' (l.map f) = (groupBy key l).map (Group.map f) := by
  induction l using List.reverseRecOn with
  | nil => rfl
  | append_singleton l a ih =>
    rw [List.map_append, List.map_singleton, groupBy_concat, groupBy_concat, hk, ih,
      addToGroups_map]

/-- Two functions give the same for lists that a third one makes equal, if they do for single
elements. -/
theorem map_eq_of_map_eq {γ : Type} {f : α → β} {g g' : α → γ}
    (h : ∀ a b, f a = f b → g a = g' b) {l l' : List α} (hl : l.map f = l'.map f) :
    l.map g = l'.map g' := by
  induction l generalizing l' with
  | nil =>
    rw [List.map_eq_nil_iff.1 hl.symm]
    rfl
  | cons a l ih =>
    cases l' with
    | nil => cases hl
    | cons b l' =>
      obtain ⟨hab, hl⟩ := List.cons.inj hl
      rw [List.map_cons, List.map_cons, h a b hab, ih hl]

/-! ## Folding a group -/

section Fold

variable {f g : α → α → α} {p : α → Prop}

/-- What holds of a step when it holds of one of its arguments holds of a fold, if
the elements have a property that the steps keep. -/
theorem foldl_of_mem_of {q : α → Prop} (hq : ∀ a b, q a → q b → q (f a b))
    (hl : ∀ a b, q a → q b → p a → p (f a b)) (hr : ∀ a b, q a → q b → p b → p (f a b)) {a b : α}
    {l : List α} (hk : ∀ c ∈ a :: l, q c) (hb : b ∈ a :: l) (h : p b) : p (l.foldl f a) := by
  have hfold : q (l.foldl f a) ∧ p (l.foldl f a) := by
    induction l generalizing a b with
    | nil => exact ⟨hk a List.mem_cons_self, by rwa [← List.mem_singleton.1 hb]⟩
    | cons c l ih =>
      obtain ⟨ha, hk⟩ := List.forall_mem_cons.1 hk
      obtain ⟨hc, hk⟩ := List.forall_mem_cons.1 hk
      have hk : ∀ d ∈ f a c :: l, q d := List.forall_mem_cons.2 ⟨hq a c ha hc, hk⟩
      rcases List.mem_cons.1 hb with rfl | hb
      · exact ih hk List.mem_cons_self (hl _ c ha hc h)
      rcases List.mem_cons.1 hb with rfl | hb
      · exact ih hk List.mem_cons_self (hr a _ ha hc h)
      · exact ih hk (List.mem_cons_of_mem _ hb) h
  exact hfold.2

/-- The same for any elements. -/
theorem foldl_of_mem (hl : ∀ a b, p a → p (f a b)) (hr : ∀ a b, p b → p (f a b)) {a b : α}
    {l : List α} (hb : b ∈ a :: l) (h : p b) : p (l.foldl f a) :=
  foldl_of_mem_of (q := fun _ => True) (fun _ _ _ _ => trivial) (fun a b _ _ => hl a b)
    (fun a b _ _ => hr a b) (fun _ _ => trivial) hb h

/-- What holds of a step when it holds of both of its arguments holds of a fold. -/
theorem foldl_of_forall (h : ∀ a b, p a → p b → p (f a b)) {a : α} {l : List α}
    (hl : ∀ b ∈ a :: l, p b) : p (l.foldl f a) := by
  refine List.foldlRecOn l f (hl a List.mem_cons_self) fun c hc b hb => ?_
  exact h c b hc (hl b (List.mem_cons_of_mem _ hb))

/-- Steps that do the same to elements with a property, and keep it, fold alike. -/
theorem foldl_congr_of (h : ∀ a b, p a → p b → f a b = g a b ∧ p (f a b)) {a : α} {l : List α}
    (hl : ∀ b ∈ a :: l, p b) : l.foldl f a = l.foldl g a := by
  induction l generalizing a with
  | nil => rfl
  | cons b l ih =>
    obtain ⟨ha, hl⟩ := List.forall_mem_cons.1 hl
    obtain ⟨hb, hl⟩ := List.forall_mem_cons.1 hl
    obtain ⟨he, hp⟩ := h a b ha hb
    rw [List.foldl_cons, List.foldl_cons, ← he]
    exact ih (List.forall_mem_cons.2 ⟨hp, hl⟩)

/-- Steps that do the same wherever a fold gets to fold alike. -/
theorem foldl_congr_prefix {f g : β → α → β} {b : β} {l : List α}
    (h : ∀ before a after, l = before ++ a :: after →
      f (before.foldl g b) a = g (before.foldl g b) a) : l.foldl f b = l.foldl g b := by
  induction l using List.reverseRecOn with
  | nil => rfl
  | append_singleton l a ih =>
    have hstart : l.foldl f b = l.foldl g b := by
      apply ih
      intro before c after hl
      apply h before c (after ++ [a])
      rw [hl, List.append_assoc, List.cons_append]
    rw [List.foldl_append, List.foldl_append, hstart]
    exact h l a [] rfl

/-- Lists that a function makes equal fold to what it makes equal, if it does so step by
step. -/
theorem foldl_eq_of_map_eq {F : α → β}
    (h : ∀ a a' b b', F a = F a' → F b = F b' → F (f a b) = F (f a' b')) {a a' : α}
    {l l' : List α} (ha : F a = F a') (hl : l.map F = l'.map F) :
    F (l.foldl f a) = F (l'.foldl f a') := by
  induction l generalizing a a' l' with
  | nil =>
    rw [List.map_eq_nil_iff.1 hl.symm]
    exact ha
  | cons b l ih =>
    cases l' with
    | nil => cases hl
    | cons b' l' =>
      obtain ⟨hb, hl⟩ := List.cons.inj hl
      rw [List.foldl_cons, List.foldl_cons]
      exact ih (h a a' b b' ha hb) hl

theorem foldl_iff_exists (h : ∀ a b, p (f a b) ↔ p a ∨ p b) (a : α) (l : List α) :
    p (l.foldl f a) ↔ ∃ b ∈ a :: l, p b := by
  constructor
  · intro hp
    induction l generalizing a with
    | nil => exact ⟨a, List.mem_cons_self, hp⟩
    | cons c l ih =>
      obtain ⟨b, hb, hpb⟩ := ih (f a c) hp
      rcases List.mem_cons.1 hb with rfl | hb
      · rcases (h a c).1 hpb with hpa | hpc
        · exact ⟨a, List.mem_cons_self, hpa⟩
        · exact ⟨c, by simp, hpc⟩
      · exact ⟨b, by simp [hb], hpb⟩
  · rintro ⟨b, hb, hpb⟩
    have hl : ∀ a b, p a → p (f a b) := fun a b ha => (h a b).2 (.inl ha)
    have hr : ∀ a b, p b → p (f a b) := fun a b hb => (h a b).2 (.inr hb)
    exact foldl_of_mem hl hr hb hpb

end Fold

end SelectionModel
