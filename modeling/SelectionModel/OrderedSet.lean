/-!
# Ordered sets

A finite set that keeps its members in the order in which they were first
inserted. Selection keys and possible types are sets of this kind.

* `toList_insert`: inserting appends a new member and ignores a known one.
* `mem_insert`, `mem_insertAll`: what an insertion adds.
* `toList_ofList`: a list without duplicates is its own ordered set.
-/

namespace SelectionModel

/-- A finite set in insertion order. -/
structure OrderedSet (α : Type) where
  toList : List α
  nodup : toList.Nodup

namespace OrderedSet

variable {α : Type}

@[ext] theorem ext {s t : OrderedSet α} (h : s.toList = t.toList) : s = t := by
  cases s; cases t; cases h; rfl

instance : EmptyCollection (OrderedSet α) := ⟨⟨[], List.Pairwise.nil⟩⟩

instance : Inhabited (OrderedSet α) := ⟨∅⟩

instance : Membership α (OrderedSet α) := ⟨fun s a => a ∈ s.toList⟩

theorem mem_def {s : OrderedSet α} {a : α} : a ∈ s ↔ a ∈ s.toList := Iff.rfl

@[simp] theorem toList_empty : (∅ : OrderedSet α).toList = [] := rfl

/-- The set with one member. -/
def singleton (a : α) : OrderedSet α := ⟨[a], List.pairwise_singleton _ a⟩

@[simp] theorem toList_singleton (a : α) : (singleton a).toList = [a] := rfl

/-- The number of members. -/
def size (s : OrderedSet α) : Nat := s.toList.length

/-- The members that satisfy a test, in order. -/
def filter (p : α → Bool) (s : OrderedSet α) : OrderedSet α :=
  ⟨s.toList.filter p, List.Pairwise.filter p s.nodup⟩

@[simp] theorem toList_filter (p : α → Bool) (s : OrderedSet α) :
    (s.filter p).toList = s.toList.filter p := rfl

theorem nodup_append_singleton {l : List α} {a : α} (h : l.Nodup) (ha : a ∉ l) :
    (l ++ [a]).Nodup :=
  List.nodup_append.2 ⟨h, List.pairwise_singleton _ a, by
    intro x hx y hy
    obtain rfl := List.mem_singleton.1 hy
    exact fun e => ha (e ▸ hx)⟩

section Decidable

variable [DecidableEq α]

instance : DecidableEq (OrderedSet α) := fun s t =>
  decidable_of_iff (s.toList = t.toList) ⟨ext, fun h => h ▸ rfl⟩

instance (a : α) (s : OrderedSet α) : Decidable (a ∈ s) :=
  inferInstanceAs (Decidable (a ∈ s.toList))

/-- Adds a member at the end, unless it is there already. -/
def insert (s : OrderedSet α) (a : α) : OrderedSet α :=
  if h : a ∈ s.toList then s else ⟨s.toList ++ [a], nodup_append_singleton s.nodup h⟩

/-- **Insertion appends what is new** and ignores what is known. -/
theorem toList_insert (s : OrderedSet α) (a : α) :
    (s.insert a).toList = if a ∈ s then s.toList else s.toList ++ [a] := by
  unfold insert
  by_cases h : a ∈ s.toList
  · simp [h, mem_def]
  · simp [h, mem_def]

@[simp] theorem mem_insert {s : OrderedSet α} {a b : α} : b ∈ s.insert a ↔ b ∈ s ∨ b = a := by
  rw [mem_def, toList_insert]
  by_cases h : a ∈ s
  · simp only [h, if_true, mem_def]
    exact ⟨Or.inl, fun hb => hb.elim id fun e => e ▸ h⟩
  · simp [h, mem_def]

/-- Adds every element of a list, from left to right. -/
def insertAll (s : OrderedSet α) (l : List α) : OrderedSet α := l.foldl insert s

@[simp] theorem insertAll_nil (s : OrderedSet α) : s.insertAll [] = s := rfl

@[simp] theorem insertAll_cons (s : OrderedSet α) (a : α) (l : List α) :
    s.insertAll (a :: l) = (s.insert a).insertAll l := rfl

theorem insertAll_append (s : OrderedSet α) (l m : List α) :
    s.insertAll (l ++ m) = (s.insertAll l).insertAll m := List.foldl_append

@[simp] theorem mem_insertAll {s : OrderedSet α} {l : List α} {b : α} :
    b ∈ s.insertAll l ↔ b ∈ s ∨ b ∈ l := by
  induction l generalizing s with
  | nil => simp
  | cons a l ih => simp [ih, or_assoc]

/-- Insertions leave the members that are there at the head. -/
theorem prefix_insertAll (s : OrderedSet α) (l : List α) : s.toList <+: (s.insertAll l).toList := by
  induction l generalizing s with
  | nil => exact List.prefix_rfl
  | cons a l ih =>
    have hs : s.toList <+: (s.insert a).toList := by
      rw [toList_insert]
      split
      · exact List.prefix_rfl
      · exact List.prefix_append _ _
    exact hs.trans (ih (s.insert a))

/-- Inserting members changes nothing. -/
theorem insertAll_of_forall_mem {s : OrderedSet α} {l : List α} (h : ∀ a ∈ l, a ∈ s) :
    s.insertAll l = s := by
  induction l with
  | nil => rfl
  | cons a l ih =>
    obtain ⟨ha, hl⟩ := List.forall_mem_cons.1 h
    have hs : s.insert a = s := ext (by rw [toList_insert, if_pos ha])
    rw [insertAll_cons, hs, ih hl]

/-- The elements of a list, each at its first occurrence. -/
def ofList (l : List α) : OrderedSet α := insertAll ∅ l

@[simp] theorem mem_ofList {l : List α} {b : α} : b ∈ ofList l ↔ b ∈ l := by
  simp [ofList, mem_def (s := ∅)]

theorem toList_insertAll_of_nodup {s : OrderedSet α} {l : List α} (h : l.Nodup)
    (hd : ∀ a ∈ l, a ∉ s) : (s.insertAll l).toList = s.toList ++ l := by
  induction l generalizing s with
  | nil => simp
  | cons a l ih =>
    have ha : a ∉ s := hd a List.mem_cons_self
    have hal : a ∉ l ∧ l.Nodup := List.nodup_cons.1 h
    rw [insertAll_cons, ih hal.2, toList_insert, if_neg ha]
    · simp
    · intro b hb hin
      rcases mem_insert.1 hin with h1 | h1
      · exact hd b (List.mem_cons_of_mem _ hb) h1
      · exact hal.1 (h1 ▸ hb)

/-- **A list without duplicates is its own ordered set.** -/
theorem toList_ofList {l : List α} (h : l.Nodup) : (ofList l).toList = l := by
  rw [ofList, toList_insertAll_of_nodup h (by simp [mem_def])]
  rfl

/-- The members of the first set, then the new ones of the second. -/
def union (s t : OrderedSet α) : OrderedSet α := s.insertAll t.toList

@[simp] theorem mem_union {s t : OrderedSet α} {a : α} : a ∈ s.union t ↔ a ∈ s ∨ a ∈ t :=
  mem_insertAll

theorem union_mono {s s' t t' : OrderedSet α} (h : ∀ a ∈ s, a ∈ s') (h' : ∀ a ∈ t, a ∈ t') :
    ∀ a ∈ s.union t, a ∈ s'.union t' :=
  fun a ha => mem_union.2 ((mem_union.1 ha).imp (h a) (h' a))

/-- The members of the first set that are in the second as well. -/
def inter (s t : OrderedSet α) : OrderedSet α := s.filter fun a => decide (a ∈ t)

@[simp] theorem mem_inter {s t : OrderedSet α} {a : α} : a ∈ s.inter t ↔ a ∈ s ∧ a ∈ t := by
  simp [inter, mem_def]

/-- The images of the members, in order. -/
def map {β : Type} [DecidableEq β] (f : α → β) (s : OrderedSet α) : OrderedSet β :=
  ofList (s.toList.map f)

end Decidable

@[simp] theorem mem_map {β : Type} [DecidableEq β] {f : α → β} {s : OrderedSet α} {b : β} :
    b ∈ s.map f ↔ ∃ a ∈ s, f a = b := by
  simp [map, mem_def (s := s)]

end OrderedSet

end SelectionModel
