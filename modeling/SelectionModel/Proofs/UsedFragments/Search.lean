import Mathlib.Data.List.Perm.Subperm
import SelectionModel.OrderedSet
import SelectionModel.Proofs.Steps
import SelectionModel.Proofs.UsedFragments.Walk

/-!
# The search for used fragments

The search visits each fragment once, while a walk goes into a fragment wherever it is
spread. The two come to the same: what a fragment spreads has all been found when the
search is done with it, so a walk meets nothing new there.

* `Explored`: what the search has found at any time.
* `Explored.visit`: one search, by induction on the walk that it follows.
* `visitSelections_eq_resolve`: **the search gives the fragments that the walk meets**, or
  fails at the first spread on the walk that is not registered. No bound on the depth
  matters that is larger than the number of fragments.
-/

namespace SelectionModel

/-- A spread names no registered fragment. -/
def Registry.lacks (registry : Registry) (x : PlacedSpread) : Bool :=
  (registry.get? x.name).isNone

/-- The names of the spreads on a walk, in the order of first use. -/
def firstUses (walk : List PlacedSpread) : List String :=
  (OrderedSet.ofList (walk.map PlacedSpread.name)).toList

/-- **The fragments on a walk**, in the order of first use. The first spread that is not
registered is an error. -/
def Registry.resolve (registry : Registry) (walk : List PlacedSpread) :
    Except BuildError (List RegisteredFragment) :=
  match walk.find? registry.lacks with
  | some x => .error (.undefinedFragment x.name x.location)
  | none => .ok ((firstUses walk).filterMap registry.get?)

/-! ## One visit -/

section Visit

variable {registry : Registry} {location : SourceLocation} {name : String}
  {used : List RegisteredFragment} {bound : Nat}

theorem any_name_eq : (used.any fun f => f.name == name) = true ↔
    name ∈ used.map RegisteredFragment.name := by
  simp [List.any_eq_true]

/-- A fragment that was found is not visited again. -/
theorem visitSpread_of_mem (h : name ∈ used.map RegisteredFragment.name) :
    visitSpread registry (bound + 1) location name used = .ok used := by
  rw [visitSpread, if_pos (any_name_eq.2 h)]

theorem visitSpread_of_lacks (hn : name ∉ used.map RegisteredFragment.name)
    (h : registry.get? name = none) :
    visitSpread registry (bound + 1) location name used =
      .error (.undefinedFragment name location) := by
  rw [visitSpread, if_neg (mt any_name_eq.1 hn), h]

/-- A new fragment is found, and then what it spreads is visited. -/
theorem visitSpread_of_new {f : RegisteredFragment}
    (hn : name ∉ used.map RegisteredFragment.name) (h : registry.get? name = some f) :
    visitSpread registry (bound + 1) location name used =
      visitSpreads (visitSpread registry bound) f.spreads (used ++ [f]) := by
  rw [visitSpread, if_neg (mt any_name_eq.1 hn), h]
  exact visitSelections_eq _ _ _ _

end Visit

/-! ## What has been found -/

/-- **What a search has found** while it is inside of some fragments: registered ones,
each once, among them those that it is inside of. Of all others it has found what they
spread. -/
structure Explored (registry : Registry) (inside : List String) (used : List RegisteredFragment) :
    Prop where
  registered : ∀ f ∈ used, registry.get? f.name = some f
  nodup : (used.map RegisteredFragment.name).Nodup
  within : ∀ name ∈ inside, name ∈ used.map RegisteredFragment.name
  closed : ∀ f ∈ used, f.name ∉ inside → ∀ x ∈ f.spreads,
    x.name ∈ used.map RegisteredFragment.name

namespace Explored

variable {registry : Registry} {inside : List String} {used : List RegisteredFragment}
  {name : String} {f : RegisteredFragment}

/-- At the start nothing has been found. -/
theorem start (registry : Registry) : Explored registry [] [] where
  registered _ h := absurd h List.not_mem_nil
  nodup := List.nodup_nil
  within _ h := absurd h List.not_mem_nil
  closed _ h := absurd h List.not_mem_nil

/-- The names that have been found, in order. -/
def names (h : Explored registry inside used) : OrderedSet String :=
  ⟨used.map RegisteredFragment.name, h.nodup⟩

theorem mem_of_get? (h : Explored registry inside used)
    (hn : name ∈ used.map RegisteredFragment.name) (hf : registry.get? name = some f) :
    f ∈ used := by
  obtain ⟨g, hg, rfl⟩ := List.mem_map.1 hn
  have he : some g = some f := (h.registered g hg).symm.trans hf
  exact Option.some.inj he ▸ hg

/-- No more fragments are found than there are. -/
theorem length_le (h : Explored registry inside used) :
    used.length ≤ registry.fragments.length := by
  have hsub : used.map RegisteredFragment.name ⊆
      registry.fragments.map RegisteredFragment.name := by
    intro n hn
    obtain ⟨g, hg, rfl⟩ := List.mem_map.1 hn
    exact List.mem_map_of_mem (List.mem_of_find?_eq_some (h.registered g hg))
  have hle := (h.nodup.subperm hsub).length_le
  simpa using hle

/-- The search goes into a new fragment. -/
theorem enter (h : Explored registry inside used) (hf : registry.get? name = some f)
    (hn : name ∉ used.map RegisteredFragment.name) :
    Explored registry (name :: inside) (used ++ [f]) := by
  obtain rfl : f.name = name := Registry.name_of_get? hf
  have hmap : (used ++ [f]).map RegisteredFragment.name =
      used.map RegisteredFragment.name ++ [f.name] := by simp
  constructor
  · intro g hg
    rcases List.mem_append.1 hg with hg | hg
    · exact h.registered g hg
    · rw [List.mem_singleton.1 hg, hf]
  · rw [hmap]
    exact OrderedSet.nodup_append_singleton h.nodup hn
  · intro n hm
    rw [hmap, List.mem_append]
    rcases List.mem_cons.1 hm with rfl | hm
    · exact .inr (List.mem_singleton_self _)
    · exact .inl (h.within n hm)
  · intro g hg hi x hx
    rw [List.mem_cons, not_or] at hi
    rw [hmap, List.mem_append]
    rcases List.mem_append.1 hg with hg | hg
    · exact .inl (h.closed g hg hi.2 x hx)
    · exact absurd (congrArg RegisteredFragment.name (List.mem_singleton.1 hg)) hi.1

/-- The search is done with a fragment when it has found what that spreads. -/
theorem leave (h : Explored registry (name :: inside) used) (hf : registry.get? name = some f)
    (hs : ∀ x ∈ f.spreads, x.name ∈ used.map RegisteredFragment.name) :
    Explored registry inside used where
  registered := h.registered
  nodup := h.nodup
  within n hn := h.within n (List.mem_cons_of_mem _ hn)
  closed g hg hi := by
    by_cases he : g.name = name
    · -- the fragment itself, as no other has its name
      have hgf : some g = some f := by rw [← h.registered g hg, he, hf]
      rw [Option.some.inj hgf]
      exact hs
    · exact h.closed g hg (by simp [he, hi])

/-- **A walk meets nothing new** from spreads on that have all been found. -/
theorem met (h : Explored registry inside used) {around : List String}
    {xs walk : List PlacedSpread} (hw : DepthFirst registry around xs walk)
    (hi : ∀ n ∈ inside, n ∈ around) (hx : ∀ x ∈ xs, x.name ∈ used.map RegisteredFragment.name) :
    ∀ x ∈ walk, x.name ∈ used.map RegisteredFragment.name := by
  induction hw with
  | nil => exact fun _ hx => absurd hx List.not_mem_nil
  | unregistered _ _ ih =>
    obtain ⟨hy, hx⟩ := List.forall_mem_cons.1 hx
    exact List.forall_mem_cons.2 ⟨hy, ih hi hx⟩
  | around _ _ ih =>
    obtain ⟨hy, hx⟩ := List.forall_mem_cons.1 hx
    exact List.forall_mem_cons.2 ⟨hy, ih hi hx⟩
  | entered hn hf _ _ ihi ihw =>
    obtain ⟨hy, hx⟩ := List.forall_mem_cons.1 hx
    -- the search is not inside of the fragment, so it is done with it
    have hg := h.mem_of_get? hy hf
    have hname := Registry.name_of_get? hf
    have hinner := ihi (fun n hm => List.mem_cons_of_mem _ (hi n hm))
      (h.closed _ hg (hname ▸ fun hm => hn (hi _ hm)))
    exact List.forall_mem_cons.2 ⟨hy, List.forall_mem_append.2 ⟨hinner, ihw hi hx⟩⟩

theorem lacks_of_mem (h : Explored registry inside used) {x : PlacedSpread}
    (hx : x.name ∈ used.map RegisteredFragment.name) : registry.lacks x = false := by
  obtain ⟨g, hg, hn⟩ := List.mem_map.1 hx
  rw [Registry.lacks, ← hn, h.registered g hg]
  rfl

theorem insertAll_names (h : Explored registry inside used) {ns : List String}
    (hn : ∀ n ∈ ns, n ∈ used.map RegisteredFragment.name) : h.names.insertAll ns = h.names := by
  induction ns with
  | nil => rfl
  | cons n ns ih =>
    obtain ⟨hn, hns⟩ := List.forall_mem_cons.1 hn
    have hin : h.names.insert n = h.names := OrderedSet.ext (by
      rw [OrderedSet.toList_insert, if_pos (OrderedSet.mem_def.2 hn)])
    rw [OrderedSet.insertAll_cons, hin, ih hns]

/-- What a search along a walk gives: an error at the first spread that is not registered,
or all that is met on the walk, behind what had been found before. -/
def Gives (h : Explored registry inside used) (walk : List PlacedSpread)
    (result : Except BuildError (List RegisteredFragment)) : Prop :=
  (∃ x, walk.find? registry.lacks = some x ∧
      result = .error (.undefinedFragment x.name x.location)) ∨
    (walk.find? registry.lacks = none ∧ ∃ found, result = .ok found ∧
      ∃ h' : Explored registry inside found,
        h'.names = h.names.insertAll (walk.map PlacedSpread.name))

/-- Spreads that have all been found change nothing in front of a walk. -/
theorem Gives.behind (h : Explored registry inside used) {met walk : List PlacedSpread}
    {result : Except BuildError (List RegisteredFragment)}
    (hm : ∀ x ∈ met, x.name ∈ used.map RegisteredFragment.name) (hg : h.Gives walk result) :
    h.Gives (met ++ walk) result := by
  have hnone : met.find? registry.lacks = none :=
    List.find?_eq_none.2 fun x hx => by simp [h.lacks_of_mem (hm x hx)]
  have hsame : h.names.insertAll (met.map PlacedSpread.name) = h.names := by
    refine h.insertAll_names fun n hn => ?_
    obtain ⟨x, hx, rfl⟩ := List.mem_map.1 hn
    exact hm x hx
  rw [Gives, List.find?_append, hnone, Option.none_or, List.map_append,
    OrderedSet.insertAll_append, hsame]
  exact hg

/-- What has been found stays found, so the search never finds less. -/
theorem length_le_of_names {inside' : List String} {found : List RegisteredFragment}
    (h : Explored registry inside used) (h' : Explored registry inside' found)
    (hsub : ∀ n ∈ h.names, n ∈ h'.names) : used.length ≤ found.length := by
  have hle := (h.nodup.subperm hsub).length_le
  simpa [names] using hle

/-- **A new fragment is gone into**: first the search is inside of it, then it goes on with
all that was found there. -/
theorem Gives.entered (h : Explored registry inside used) {x : PlacedSpread}
    {inner walk : List PlacedSpread} (hf : registry.get? x.name = some f)
    (hm : x.name ∉ used.map RegisteredFragment.name)
    (hwi : DepthFirst registry (x.name :: inside) f.spreads inner)
    {first : Except BuildError (List RegisteredFragment)}
    {rest : List RegisteredFragment → Except BuildError (List RegisteredFragment)}
    (hfirst : (h.enter hf hm).Gives inner first)
    (hrest : ∀ (found : List RegisteredFragment) (hout : Explored registry inside found),
      used.length ≤ found.length → hout.Gives walk (rest found)) :
    h.Gives (x :: (inner ++ walk)) (first >>= rest) := by
  have hl : registry.lacks x = false := by rw [Registry.lacks, hf]; rfl
  have hname : f.name = x.name := Registry.name_of_get? hf
  have henter : (h.enter hf hm).names = h.names.insert x.name := OrderedSet.ext (by
    rw [OrderedSet.toList_insert, if_neg (mt OrderedSet.mem_def.1 hm)]
    simp [names, hname])
  rw [Gives, List.find?_cons_of_neg (by simp [hl]), List.find?_append, List.map_cons,
    List.map_append, OrderedSet.insertAll_cons, OrderedSet.insertAll_append, ← henter]
  rcases hfirst with ⟨y, hy, rfl⟩ | ⟨hnone, found, rfl, hin, hnames⟩
  · exact .inl ⟨y, by rw [hy]; rfl, rfl⟩
  have hout : Explored registry inside found := hin.leave hf fun y hy => by
    have hy' : y.name ∈ hin.names := by
      rw [hnames, OrderedSet.mem_insertAll]
      exact .inr (List.mem_map_of_mem (hwi.subset y hy))
    exact hy'
  have hlonger : used.length ≤ found.length := h.length_le_of_names hin fun n hn => by
    rw [hnames, OrderedSet.mem_insertAll, henter, OrderedSet.mem_insert]
    exact .inl (.inl hn)
  have hgives := hrest found hout hlonger
  rw [hnone, Option.none_or, ← hnames]
  exact hgives

/-- **One search**, which follows a walk. The bound on the depth leaves room for all
fragments that have not been found. -/
theorem visit {xs walk : List PlacedSpread} (hw : DepthFirst registry inside xs walk) :
    ∀ {used : List RegisteredFragment} {bound : Nat} (h : Explored registry inside used),
      registry.fragments.length < bound + used.length →
      h.Gives walk (visitSpreads (visitSpread registry bound) xs used) := by
  induction hw with
  | nil => exact fun h _ => .inr ⟨rfl, _, rfl, h, rfl⟩
  | @unregistered inside x xs walk hn hw ih =>
    intro used bound h hb
    obtain ⟨bound, rfl⟩ : ∃ b, bound = b + 1 := ⟨bound - 1, by have := h.length_le; omega⟩
    have hm : x.name ∉ used.map RegisteredFragment.name := by
      intro hm
      obtain ⟨g, hg, he⟩ := List.mem_map.1 hm
      rw [← he, h.registered g hg] at hn
      cases hn
    refine .inl ⟨x, List.find?_cons_of_pos (by rw [Registry.lacks, hn]; rfl), ?_⟩
    rw [visitSpreads_cons, visitSpread_of_lacks hm hn]
    rfl
  | @around inside x xs walk ha hw ih =>
    intro used bound h hb
    obtain ⟨bound, rfl⟩ : ∃ b, bound = b + 1 := ⟨bound - 1, by have := h.length_le; omega⟩
    rw [visitSpreads_cons, visitSpread_of_mem (h.within _ ha)]
    exact .behind h (List.forall_mem_singleton.2 (h.within _ ha)) (ih h hb)
  | @entered inside x xs inner walk f hi hf hwi hw ihi ihw =>
    intro used bound h hb
    obtain ⟨bound, rfl⟩ : ∃ b, bound = b + 1 := ⟨bound - 1, by have := h.length_le; omega⟩
    by_cases hm : x.name ∈ used.map RegisteredFragment.name
    · -- the search is done with the fragment, and the walk meets nothing new in it
      have hc : f.name ∉ inside := (Registry.name_of_get? hf).symm ▸ hi
      have hmet := h.met hwi (fun _ => List.mem_cons_of_mem _)
        (h.closed f (h.mem_of_get? hm hf) hc)
      rw [visitSpreads_cons, visitSpread_of_mem hm, ← List.cons_append]
      exact .behind h (List.forall_mem_cons.2 ⟨hm, hmet⟩) (ihw h hb)
    · rw [visitSpreads_cons, visitSpread_of_new hm hf]
      refine .entered h hf hm hwi (ihi (h.enter hf hm) ?_) fun found hout hle => ihw hout ?_
      · rw [List.length_append, List.length_singleton]
        omega
      · omega

end Explored

/-! ## The whole search -/

variable {registry : Registry} {walk : List PlacedSpread}

/-- **The search gives the fragments that the walk meets.** -/
theorem visitSelections_eq_resolve {file : Option String} {selections : List Selection}
    (hw : DepthFirst registry [] (spreadsIn file selections) walk) {bound : Nat}
    (hb : registry.fragments.length < bound) :
    visitSelections (visitSpread registry bound) file selections [] = registry.resolve walk := by
  rw [visitSelections_eq, Registry.resolve]
  rcases Explored.visit hw (.start registry) (by simpa using hb) with
    ⟨x, hx, he⟩ | ⟨hn, found, hf, h, hnames⟩
  · rw [hx, he]
  · rw [hn, hf]
    -- each fragment is the registered one of its name
    have hfound : (found.map RegisteredFragment.name).filterMap registry.get? = found := by
      rw [List.filterMap_map]
      refine (List.filterMap_congr fun f hf => ?_).trans List.filterMap_some
      exact h.registered f hf
    have he : found.map RegisteredFragment.name = firstUses walk :=
      congrArg OrderedSet.toList hnames
    rw [← he, hfound]

theorem usedFragments_eq_resolve {file : Option String} {selections : List Selection}
    (hw : DepthFirst registry [] (spreadsIn file selections) walk) :
    usedFragments registry file selections = registry.resolve walk :=
  visitSelections_eq_resolve hw (Nat.lt_succ_self _)

theorem mem_firstUses {name : String} : name ∈ firstUses walk ↔ ∃ x ∈ walk, x.name = name := by
  rw [firstUses, ← OrderedSet.mem_def, OrderedSet.mem_ofList, List.mem_map]

theorem Registry.lacks_iff {x : PlacedSpread} :
    registry.lacks x = true ↔ registry.get? x.name = none := Option.isNone_iff_eq_none

/-- A walk with an unregistered spread comes to no fragments, because of the first one. -/
theorem Registry.resolve_eq_error {e : BuildError} :
    registry.resolve walk = .error e ↔
      ∃ x, walk.find? registry.lacks = some x ∧ e = .undefinedFragment x.name x.location := by
  rw [resolve]
  cases walk.find? registry.lacks with
  | none => simp
  | some x => simp [eq_comm]

theorem Registry.exists_resolve_eq_error :
    (∃ e, registry.resolve walk = .error e) ↔ ∃ x ∈ walk, registry.get? x.name = none := by
  simp only [resolve_eq_error]
  constructor
  · rintro ⟨-, x, hx, -⟩
    exact ⟨x, List.mem_of_find?_eq_some hx, lacks_iff.1 (List.find?_some hx)⟩
  · rintro ⟨x, hx, hn⟩
    have hsome : (walk.find? registry.lacks).isSome := List.find?_isSome.2 ⟨x, hx, lacks_iff.2 hn⟩
    obtain ⟨y, hy⟩ := Option.isSome_iff_exists.1 hsome
    exact ⟨_, y, hy, rfl⟩

/-- A walk without an unregistered spread comes to the fragments of its names. -/
theorem Registry.names_of_resolve {used : List RegisteredFragment}
    (h : registry.resolve walk = .ok used) :
    used.map RegisteredFragment.name = firstUses walk ∧
      ∀ f, f ∈ used ↔ registry.get? f.name = some f ∧ ∃ x ∈ walk, x.name = f.name := by
  rw [resolve] at h
  split at h
  · cases h
  next hn =>
  obtain rfl := Except.ok.inj h
  have hall : ∀ n ∈ firstUses walk, ∃ f, registry.get? n = some f ∧ f.name = n := by
    intro n hm
    obtain ⟨x, hx, rfl⟩ := mem_firstUses.1 hm
    have hsome : registry.get? x.name ≠ none := by
      simpa [lacks] using List.find?_eq_none.1 hn x hx
    obtain ⟨f, hf⟩ := Option.ne_none_iff_exists'.1 hsome
    exact ⟨f, hf, name_of_get? hf⟩
  constructor
  · rw [List.map_filterMap]
    refine (List.filterMap_congr fun n hm => ?_).trans List.filterMap_some
    obtain ⟨f, hf, rfl⟩ := hall n hm
    rw [hf]
    rfl
  · intro f
    rw [List.mem_filterMap]
    constructor
    · rintro ⟨n, hm, hf⟩
      obtain rfl := name_of_get? hf
      exact ⟨hf, mem_firstUses.1 hm⟩
    · rintro ⟨hf, hx⟩
      exact ⟨f.name, mem_firstUses.2 hx, hf⟩

end SelectionModel
