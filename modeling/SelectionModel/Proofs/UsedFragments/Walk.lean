import SelectionModel.Lowering.UsedFragments

/-!
# Walks along spreads

Which spreads are met from some selections on, also in the fragments that are spread
there. A depth-first walk meets what a fragment spreads right behind the spread of the
fragment. It goes into a fragment wherever that is spread, but not inside of itself: so
it ends, also where fragments spread each other in a circle.

* `visitSelections_eq`: visiting selections is visiting the spreads in them.
* `DepthFirst.exists`: there is a walk from any spreads on.
* `DepthFirst.mem_iff`: **a walk meets the spreads that are reached, and no others.**
-/

namespace SelectionModel

/-! ## The spreads in selections -/

/-- A spread that stands at a location. -/
structure PlacedSpread where
  location : SourceLocation
  name : String

mutual

/-- The spreads in a selection of a file, in order: below fields and in inline
fragments as well, whatever their directives say. -/
def Selection.spreads (file : Option String) : Selection → List PlacedSpread
  | .field _ selections => spreadsIn file selections
  | .inlineFragment _ _ _ selections => spreadsIn file selections
  | .spread position name _ => [⟨.executable ⟨file, position⟩, name⟩]

/-- The spreads in selections of a file, in order. -/
def spreadsIn (file : Option String) : List Selection → List PlacedSpread
  | [] => []
  | s :: ss => s.spreads file ++ spreadsIn file ss

end

/-- The spreads in a fragment definition. -/
def RegisteredFragment.spreads (f : RegisteredFragment) : List PlacedSpread :=
  spreadsIn f.file f.selections

theorem mem_spreadsIn {file : Option String} {ss : List Selection} {x : PlacedSpread} :
    x ∈ spreadsIn file ss ↔ ∃ s ∈ ss, x ∈ s.spreads file := by
  induction ss with
  | nil => simp [spreadsIn]
  | cons s ss ih => simp [spreadsIn, ih]

/-- Visits spreads one after the other. -/
def visitSpreads (visit : SpreadVisit) (xs : List PlacedSpread) (used : List RegisteredFragment) :
    Except BuildError (List RegisteredFragment) :=
  xs.foldlM (fun used x => visit x.location x.name used) used

section Visit

variable (visit : SpreadVisit)

@[simp] theorem visitSpreads_nil (used : List RegisteredFragment) :
    visitSpreads visit [] used = .ok used := rfl

@[simp] theorem visitSpreads_cons (x : PlacedSpread) (xs : List PlacedSpread)
    (used : List RegisteredFragment) :
    visitSpreads visit (x :: xs) used =
      visit x.location x.name used >>= visitSpreads visit xs := by
  rw [visitSpreads, List.foldlM_cons]
  rfl

theorem visitSpreads_append (xs ys : List PlacedSpread) (used : List RegisteredFragment) :
    visitSpreads visit (xs ++ ys) used = visitSpreads visit xs used >>= visitSpreads visit ys := by
  rw [visitSpreads, List.foldlM_append]
  rfl

mutual

theorem visitSelection_eq (file : Option String) :
    ∀ (s : Selection) (used : List RegisteredFragment),
      visitSelection visit file s used = visitSpreads visit (s.spreads file) used
  | .field _ selections, used => by
    rw [visitSelection, Selection.spreads]
    exact visitSelections_eq file selections used
  | .inlineFragment _ _ _ selections, used => by
    rw [visitSelection, Selection.spreads]
    exact visitSelections_eq file selections used
  | .spread position name _, used => by
    rw [visitSelection, Selection.spreads, visitSpreads_cons]
    cases visit (.executable ⟨file, position⟩) name used <;> rfl

/-- **Visiting selections is visiting the spreads in them.** -/
theorem visitSelections_eq (file : Option String) :
    ∀ (ss : List Selection) (used : List RegisteredFragment),
      visitSelections visit file ss used = visitSpreads visit (spreadsIn file ss) used
  | [], used => by rw [visitSelections, spreadsIn, visitSpreads_nil]
  | s :: ss, used => by
    rw [visitSelections, visitSelection_eq file s used, spreadsIn, visitSpreads_append]
    cases visitSpreads visit (s.spreads file) used with
    | error e => rfl
    | ok used' => exact visitSelections_eq file ss used'

end

end Visit

/-! ## What is reached -/

/-- **A spread is reached from some spreads on**: it is one of them, or it is reached in
a registered fragment that one of them names. -/
inductive Reaches (registry : Registry) : List PlacedSpread → PlacedSpread → Prop where
  | here {xs : List PlacedSpread} {x : PlacedSpread} : x ∈ xs → Reaches registry xs x
  | inside {xs : List PlacedSpread} {x y : PlacedSpread} {f : RegisteredFragment} : y ∈ xs →
    registry.get? y.name = some f → Reaches registry f.spreads x → Reaches registry xs x

/-- **A depth-first walk along spreads.** It meets each of them, and behind each what its
fragment spreads, unless that is not registered or the walk is inside of it. -/
inductive DepthFirst (registry : Registry) :
    List String → List PlacedSpread → List PlacedSpread → Prop where
  | nil {inside : List String} : DepthFirst registry inside [] []
  | unregistered {inside : List String} {x : PlacedSpread} {xs walk : List PlacedSpread} :
    registry.get? x.name = none → DepthFirst registry inside xs walk →
    DepthFirst registry inside (x :: xs) (x :: walk)
  | around {inside : List String} {x : PlacedSpread} {xs walk : List PlacedSpread} :
    x.name ∈ inside → DepthFirst registry inside xs walk →
    DepthFirst registry inside (x :: xs) (x :: walk)
  | entered {inside : List String} {x : PlacedSpread} {xs inner walk : List PlacedSpread}
      {f : RegisteredFragment} :
    x.name ∉ inside → registry.get? x.name = some f →
    DepthFirst registry (x.name :: inside) f.spreads inner →
    DepthFirst registry inside xs walk →
    DepthFirst registry inside (x :: xs) (x :: (inner ++ walk))

variable {registry : Registry} {inside : List String} {xs walk : List PlacedSpread}

theorem Reaches.mono {ys : List PlacedSpread} {x : PlacedSpread} (h : Reaches registry xs x)
    (hs : ∀ y ∈ xs, y ∈ ys) : Reaches registry ys x := by
  cases h with
  | here hx => exact .here (hs x hx)
  | inside hy hf hx => exact .inside (hs _ hy) hf hx

/-! ## There is a walk -/

/-- Going into a registered fragment leaves fewer of them outside. -/
theorem outside_length_lt {fs : List RegisteredFragment} {f : RegisteredFragment} (hf : f ∈ fs)
    (hn : f.name ∉ inside) :
    (fs.filter fun g => g.name ∉ f.name :: inside).length <
      (fs.filter fun g => g.name ∉ inside).length := by
  have hsub : (fs.filter fun g => decide (g.name ∉ f.name :: inside)) =
      (fs.filter fun g => decide (g.name ∉ inside)).filter fun g => decide (g.name ≠ f.name) := by
    rw [List.filter_filter]
    refine List.filter_congr fun g _ => ?_
    simp [not_or]
  rw [hsub]
  refine List.length_filter_lt_length_iff_exists.2 ⟨f, ?_, by simp⟩
  exact List.mem_filter.2 ⟨hf, by simpa using hn⟩

/-- **There is a walk from any spreads on.** -/
theorem DepthFirst.exists (registry : Registry) (inside : List String) (xs : List PlacedSpread) :
    ∃ walk, DepthFirst registry inside xs walk := by
  generalize hn : (registry.fragments.filter fun g => g.name ∉ inside).length = n
  induction n using Nat.strongRecOn generalizing inside xs with
  | ind n ih =>
    induction xs with
    | nil => exact ⟨[], .nil⟩
    | cons x xs ihx =>
      obtain ⟨walk, hw⟩ := ihx
      by_cases hx : x.name ∈ inside
      · exact ⟨x :: walk, .around hx hw⟩
      cases hf : registry.get? x.name with
      | none => exact ⟨x :: walk, .unregistered hf hw⟩
      | some f =>
        -- inside of the fragment, one fragment less is outside
        have hname : f.name = x.name := Registry.name_of_get? hf
        have hlt := outside_length_lt (List.mem_of_find?_eq_some hf) (hname ▸ hx)
        rw [hname, hn] at hlt
        obtain ⟨inner, hi⟩ := ih _ hlt (x.name :: inside) f.spreads rfl
        exact ⟨x :: (inner ++ walk), .entered hx hf hi hw⟩

namespace DepthFirst

/-- A walk meets the spreads that it starts from. -/
theorem subset (h : DepthFirst registry inside xs walk) : ∀ x ∈ xs, x ∈ walk := by
  induction h with
  | nil => exact fun _ hx => hx
  | unregistered _ _ ih =>
    intro y hy
    rcases List.mem_cons.1 hy with rfl | hy
    · exact List.mem_cons_self
    · exact List.mem_cons_of_mem _ (ih y hy)
  | around _ _ ih =>
    intro y hy
    rcases List.mem_cons.1 hy with rfl | hy
    · exact List.mem_cons_self
    · exact List.mem_cons_of_mem _ (ih y hy)
  | entered _ _ _ _ _ ih =>
    intro y hy
    rcases List.mem_cons.1 hy with rfl | hy
    · exact List.mem_cons_self
    · exact List.mem_cons_of_mem _ (List.mem_append_right _ (ih y hy))

/-- What a walk meets is reached. -/
theorem reaches (h : DepthFirst registry inside xs walk) : ∀ x ∈ walk, Reaches registry xs x := by
  have later : ∀ {x y : PlacedSpread} {ys : List PlacedSpread}, Reaches registry ys y →
      Reaches registry (x :: ys) y := fun h => h.mono fun _ => List.mem_cons_of_mem _
  induction h with
  | nil => exact fun _ hx => absurd hx List.not_mem_nil
  | unregistered _ _ ih =>
    intro y hy
    rcases List.mem_cons.1 hy with rfl | hy
    · exact .here List.mem_cons_self
    · exact later (ih y hy)
  | around _ _ ih =>
    intro y hy
    rcases List.mem_cons.1 hy with rfl | hy
    · exact .here List.mem_cons_self
    · exact later (ih y hy)
  | entered _ hf _ _ ihi ihw =>
    intro y hy
    rcases List.mem_cons.1 hy with rfl | hy
    · exact .here List.mem_cons_self
    rcases List.mem_append.1 hy with hy | hy
    · exact .inside List.mem_cons_self hf (ihi y hy)
    · exact later (ihw y hy)

/-- A walk meets what the fragments spread that it meets, unless it is inside of them. -/
theorem closed (h : DepthFirst registry inside xs walk) :
    ∀ x ∈ walk, ∀ f, registry.get? x.name = some f → x.name ∉ inside →
      ∀ y ∈ f.spreads, y ∈ walk := by
  induction h with
  | nil => exact fun _ hx => absurd hx List.not_mem_nil
  | unregistered hn _ ih =>
    intro x hx f hf hi y hy
    rcases List.mem_cons.1 hx with rfl | hx
    · rw [hn] at hf
      cases hf
    · exact List.mem_cons_of_mem _ (ih x hx f hf hi y hy)
  | around ha _ ih =>
    intro x hx f hf hi y hy
    rcases List.mem_cons.1 hx with rfl | hx
    · exact absurd ha hi
    · exact List.mem_cons_of_mem _ (ih x hx f hf hi y hy)
  | @entered inside z zs inner walk g hz hg hi hw ihi ihw =>
    intro x hx f hf hn y hy
    -- the fragment that was gone into is the only one that the inner walk is inside of
    have own : x.name = z.name → y ∈ inner := by
      intro he
      rw [he, hg] at hf
      obtain rfl := Option.some.inj hf
      exact hi.subset y hy
    refine List.mem_cons_of_mem _ (List.mem_append.2 ?_)
    rcases List.mem_cons.1 hx with rfl | hx
    · exact .inl (own rfl)
    rcases List.mem_append.1 hx with hx | hx
    · by_cases he : x.name = z.name
      · exact .inl (own he)
      · exact .inl (ihi x hx f hf (by simp [he, hn]) y hy)
    · exact .inr (ihw x hx f hf hn y hy)

/-- **A walk from outside of all fragments meets the spreads that are reached**, and no
others. -/
theorem mem_iff (h : DepthFirst registry [] xs walk) {x : PlacedSpread} :
    x ∈ walk ↔ Reaches registry xs x := by
  constructor
  · exact h.reaches x
  · -- whatever the walk meets, it meets what is reached from there on
    have onward : ∀ {ys : List PlacedSpread}, Reaches registry ys x → (∀ y ∈ ys, y ∈ walk) →
        x ∈ walk := by
      intro ys hr
      induction hr with
      | here hx => exact fun hs => hs _ hx
      | inside hy hf _ ih =>
        exact fun hs => ih fun z hz => h.closed _ (hs _ hy) _ hf List.not_mem_nil z hz
    exact fun hx => onward hx h.subset

end DepthFirst

end SelectionModel
