/-!
# Grouping by a key

The elements of a list are collected into groups of one key each. Groups stand
in the order of their first elements, and a group keeps the order of the list.

* `members_groupBy`: the groups hold the elements of the list and no others.
* `keys_nodup_groupBy`: no two groups have the same key.
-/

namespace SelectionModel

/-- Elements with a common key, of which there is at least one. -/
structure Group (κ α : Type) where
  key : κ
  first : α
  others : List α

/-- All elements of a group. -/
def Group.members {κ α : Type} (g : Group κ α) : List α := g.first :: g.others

variable {κ α : Type} [DecidableEq κ]

/-- Adds an element to the group of its key, or behind all groups as a new one. -/
def addToGroups (key : κ) (a : α) : List (Group κ α) → List (Group κ α)
  | [] => [⟨key, a, []⟩]
  | g :: gs =>
    if g.key = key then { g with others := g.others ++ [a] } :: gs
    else g :: addToGroups key a gs

/-- The groups of a list. -/
def groupBy (key : α → κ) (l : List α) : List (Group κ α) :=
  l.foldl (fun groups a => addToGroups (key a) a groups) []

theorem keys_addToGroups (key : κ) (a : α) (gs : List (Group κ α)) :
    (addToGroups key a gs).map Group.key =
      if key ∈ gs.map Group.key then gs.map Group.key else gs.map Group.key ++ [key] := by
  induction gs with
  | nil => simp [addToGroups]
  | cons g gs ih =>
    by_cases h : g.key = key
    · simp [addToGroups, h]
    · have h' : key ≠ g.key := fun e => h e.symm
      by_cases hm : key ∈ gs.map Group.key <;> simp_all [addToGroups]

theorem mem_members_addToGroups {key : κ} {a b : α} {gs : List (Group κ α)} :
    (∃ g ∈ addToGroups key a gs, b ∈ g.members) ↔ b = a ∨ ∃ g ∈ gs, b ∈ g.members := by
  induction gs with
  | nil => simp [addToGroups, Group.members]
  | cons g gs ih =>
    by_cases h : g.key = key
    · simp only [addToGroups, if_pos h, List.mem_cons, exists_eq_or_imp, Group.members,
        List.mem_append, List.not_mem_nil, or_false]
      constructor
      · rintro ((h1 | h1 | h1) | h1) <;> simp_all
      · rintro (h1 | (h1 | h1) | h1) <;> simp_all
    · simp only [addToGroups, if_neg h, List.mem_cons, exists_eq_or_imp, ih]
      constructor
      · rintro (h1 | h1 | h1) <;> simp_all
      · rintro (h1 | h1 | h1) <;> simp_all

theorem foldl_addToGroups (key : α → κ) (l : List α) (gs : List (Group κ α))
    (h : (gs.map Group.key).Nodup) :
    ((l.foldl (fun groups a => addToGroups (key a) a groups) gs).map Group.key).Nodup := by
  induction l generalizing gs with
  | nil => exact h
  | cons a l ih =>
    refine ih _ ?_
    rw [keys_addToGroups]
    split
    · exact h
    · next hk =>
      exact List.nodup_append.2 ⟨h, List.pairwise_singleton _ _, by
        intro x hx y hy
        obtain rfl := List.mem_singleton.1 hy
        exact fun e => hk (e ▸ hx)⟩

/-- **No two groups have the same key.** -/
theorem keys_nodup_groupBy (key : α → κ) (l : List α) :
    ((groupBy key l).map Group.key).Nodup :=
  foldl_addToGroups key l [] List.Pairwise.nil

theorem mem_members_foldl {key : α → κ} {l : List α} {gs : List (Group κ α)} {b : α} :
    (∃ g ∈ l.foldl (fun groups a => addToGroups (key a) a groups) gs, b ∈ g.members) ↔
      b ∈ l ∨ ∃ g ∈ gs, b ∈ g.members := by
  induction l generalizing gs with
  | nil => simp
  | cons a l ih =>
    rw [List.foldl_cons, ih, mem_members_addToGroups, List.mem_cons]
    constructor
    · rintro (h | h | h) <;> simp_all
    · rintro ((h | h) | h) <;> simp_all

/-- **The groups hold the elements of the list** and no others. -/
theorem members_groupBy {key : α → κ} {l : List α} {b : α} :
    (∃ g ∈ groupBy key l, b ∈ g.members) ↔ b ∈ l := by
  rw [groupBy, mem_members_foldl]
  simp

end SelectionModel
