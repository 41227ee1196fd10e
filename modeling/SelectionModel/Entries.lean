/-!
# Entries

Lists of values under names. Entries keep the order in which they were set, or
are kept in the order of their names.

* `lookup_set`, `lookup_insertSorted`: both give a name its new value and leave
  the values of all other names alone.
-/

namespace SelectionModel.Entries

variable {α : Type}

/-- Sets the value of a name in place, or adds it at the end. -/
def set (name : String) (value : α) : List (String × α) → List (String × α)
  | [] => [(name, value)]
  | (n, v) :: rest => if n = name then (n, value) :: rest else (n, v) :: set name value rest

/-- Puts a value in its place by name; an earlier value of that name is replaced. -/
def insertSorted (name : String) (value : α) : List (String × α) → List (String × α)
  | [] => [(name, value)]
  | (n, v) :: rest =>
    if name = n then (name, value) :: rest
    else if name < n then (name, value) :: (n, v) :: rest
    else (n, v) :: insertSorted name value rest

/-- The entries in the order of their names, the last of equal names. -/
def sort (entries : List (String × α)) : List (String × α) :=
  entries.foldl (fun done e => insertSorted e.1 e.2 done) []

theorem lookup_entry (name : String) (value : α) (entries : List (String × α)) (other : String) :
    ((name, value) :: entries).lookup other =
      if other = name then some value else entries.lookup other := by
  rw [List.lookup_cons]
  by_cases h : other = name
  · simp [h]
  · rw [beq_false_of_ne h, if_neg h]

theorem mem_of_lookup {name : String} {value : α} {entries : List (String × α)}
    (h : entries.lookup name = some value) : (name, value) ∈ entries := by
  obtain ⟨before, after, rfl, -⟩ := List.lookup_eq_some_iff.1 h
  exact List.mem_append_right before List.mem_cons_self

/-- Setting a name leaves all other names alone. -/
theorem lookup_set (name : String) (value : α) (entries : List (String × α)) (other : String) :
    (set name value entries).lookup other =
      if other = name then some value else entries.lookup other := by
  induction entries with
  | nil => exact lookup_entry name value [] other
  | cons e entries ih =>
    obtain ⟨n, v⟩ := e
    rw [set]
    split
    · next h => subst h; simp only [lookup_entry]; split <;> rfl
    · simp only [lookup_entry, ih]; split <;> split <;> simp_all

/-- Setting an entry anew brings no other names. -/
theorem map_fst_set {name : String} {value new : α} {entries : List (String × α)}
    (h : entries.lookup name = some value) :
    (set name new entries).map Prod.fst = entries.map Prod.fst := by
  induction entries with
  | nil => cases h
  | cons e entries ih =>
    obtain ⟨n, v⟩ := e
    rw [set]
    split
    · rfl
    · next hne =>
      rw [lookup_entry, if_neg (Ne.symm hne)] at h
      rw [List.map_cons, List.map_cons, ih h]

/-- A sorted insertion leaves all other names alone. -/
theorem lookup_insertSorted (name : String) (value : α) (entries : List (String × α))
    (other : String) :
    (insertSorted name value entries).lookup other =
      if other = name then some value else entries.lookup other := by
  induction entries with
  | nil => exact lookup_entry name value [] other
  | cons e entries ih =>
    obtain ⟨n, v⟩ := e
    rw [insertSorted]
    split
    · next h => subst h; simp only [lookup_entry]; split <;> rfl
    · split
      · exact lookup_entry name value ((n, v) :: entries) other
      · simp only [lookup_entry, ih]; split <;> split <;> simp_all

end SelectionModel.Entries
