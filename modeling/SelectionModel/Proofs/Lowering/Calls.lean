import SelectionModel.Proofs.Lowering.Scopes

/-!
# The calls of lowering

Lowering some selections calls itself on those below a field and on those in a fragment. A
bound on the depth cuts these calls off. It does not matter where all of them end before.

* `Calls`: the calls that some selections lead to, also into definitions around them.
* `EndWithin`: the calls from some selections on end within a number of steps.
* `lowerField_congr`, `lowerFragment_congr`: one field and one fragment, given that what
  is in them is lowered alike.
* `LoweredAlike.lowerings`: **selections, in two registries and under two bounds.**
* `lowerPlaceWith_eq`: **lowering without regard to the bound.**
-/

namespace SelectionModel

/-! ## Calls -/

/-- **The calls of lowering**: on what is selected below the fields of a response name, and
on what is in a fragment, unless a literal rules it out. A definition is called on wherever
it is spread, also inside of itself. -/
inductive Calls (registry : Registry) (s : Selected) : Selected → Prop where
  | below {name : String} : (s.included name).flatMap SelectedField.selections ≠ [] →
    Calls registry s (s.below ((s.included name).flatMap SelectedField.selections))
  | inPlace {position : Position} {condition : Option String} {directives : List Directive}
      {selections : List Selection} :
    .inlineFragment position condition directives selections ∈ s.selections →
    ruledOut directives = false → Calls registry s (s.below selections)
  | definition {position : Position} {name : String} {directives : List Directive}
      {d : RegisteredFragment} :
    .spread position name directives ∈ s.selections → ruledOut directives = false →
    registry.get? name = some d → Calls registry s ⟨d.file, d.name :: s.enclosing, d.selections⟩

variable {pass : Pass} {registry : Registry} {s t : Selected}

/-- What is lowered below a field is called on. -/
theorem calls_of_included {g : Group String SelectedField} (hg : g ∈ s.groups)
    {conditions : List Condition} {fs : List SelectedField}
    (h : includedFields s.file g.members = .ok (conditions, fs))
    (hn : fs.flatMap SelectedField.selections ≠ []) :
    Calls registry s (s.below (fs.flatMap SelectedField.selections)) := by
  obtain rfl : fs = s.included g.key := eq_included hg h
  exact .below hn

/-- What is lowered in a fragment is called on. -/
theorem calls_of_enter {type : String} {f : SelectedFragment} {conditions : List Condition}
    {e : EnteredFragment} (hf : f ∈ s.fragments)
    (hi : inclusion s.file f.directives = .ok (.under conditions))
    (he : enter registry s type f = .ok e) : Calls registry s e.selected := by
  have hr : ruledOut f.directives = false := ruledOut_of_under hi
  rcases enter_cases hf he with ⟨condition, selections, hx, rfl⟩ | ⟨name, d, hx, hd, -, rfl⟩
  · exact .inPlace hx hr
  · exact .definition hx hr hd

/-! ## Calls that end -/

/-- **The calls end within some steps**: no chain of calls has as many. -/
def EndWithin (registry : Registry) (n : Nat) (s : Selected) : Prop :=
  ∀ chain, List.IsChain (Calls registry) (s :: chain) → chain.length < n

namespace EndWithin

variable {n : Nat}

theorem pos (h : EndWithin registry n s) : 0 < n := h [] (.singleton s)

theorem of_calls (h : EndWithin registry (n + 1) s) (hc : Calls registry s t) :
    EndWithin registry n t := by
  intro chain ht
  have hlt := h (t :: chain) (List.isChain_cons_cons.2 ⟨hc, ht⟩)
  exact Nat.lt_of_succ_lt_succ hlt

/-- Calls that take something down end when there is nothing left of it. -/
theorem of_lt (p : Selected → Prop) (size : Selected → Nat)
    (hcalls : ∀ s t, p s → Calls registry s t → p t ∧ size t < size s) (hs : p s)
    (hn : size s < n) : EndWithin registry n s := by
  intro chain hc
  induction chain generalizing s n with
  | nil => exact Nat.zero_lt_of_lt hn
  | cons t chain ih =>
    obtain ⟨hst, hc⟩ := List.isChain_cons_cons.1 hc
    obtain ⟨ht, hlt⟩ := hcalls s t hs hst
    have hshort : chain.length < n - 1 := ih ht (by omega) hc
    rw [List.length_cons]
    omega

end EndWithin

/-! ## Lowering twice -/

section Steps

variable {r r' : Registry} {below below' : PlaceLowering} {fields fields' : FieldsLowering}
  {fragments fragments' : FragmentsLowering}

/-- A field is lowered alike if what is selected below those that are included is. -/
theorem lowerField_congr {group : List SelectedField}
    (hb : ∀ place conditions (fs : List SelectedField),
      includedFields s.file group = .ok (conditions, fs) →
      fs.flatMap SelectedField.selections ≠ [] →
      below place (s.below (fs.flatMap SelectedField.selections)) =
        below' place (s.below (fs.flatMap SelectedField.selections)))
    (type : String) (keys : OrderedSet SelectionKey) (name : String) :
    lowerField pass below type keys s name group = lowerField pass below' type keys s name group := by
  rw [lowerField, lowerField]
  refine Except.bind_congr fun r hi => ?_
  obtain ⟨conditions, included⟩ := r
  cases included with
  | nil => rfl
  | cons first rest =>
    dsimp only
    cases pass.schema.field? type first.head.name with
    | none => rfl
    | some definition =>
      refine Except.bind_congr fun arguments _ => ?_
      by_cases hn : (first :: rest).flatMap SelectedField.selections = []
      · rw [if_pos (List.isEmpty_iff.2 hn), if_pos (List.isEmpty_iff.2 hn)]
      · rw [if_neg (mt List.isEmpty_iff.1 hn), if_neg (mt List.isEmpty_iff.1 hn),
          hb _ _ _ hi hn]

/-- Fragments are lowered alike if they are entered alike and what is in those that are
included is lowered alike. -/
theorem lowerFragment_congr {around : Enclosing} {f : SelectedFragment}
    (he : enter r s around.type f = enter r' s around.type f)
    (hf : ∀ conditions e, inclusion s.file f.directives = .ok (.under conditions) →
      enter r s around.type f = .ok e →
      (∀ type keys, fields type keys e.selected = fields' type keys e.selected) ∧
      (∀ around, fragments around e.selected = fragments' around e.selected)) :
    lowerFragment pass r fields fragments around s f =
      lowerFragment pass r' fields' fragments' around s f := by
  rw [lowerFragment, lowerFragment]
  refine Except.bind_congr fun inclusion hi => ?_
  cases inclusion with
  | never => rfl
  | under conditions =>
    dsimp only
    rw [← he]
    refine Except.bind_congr fun e hent => ?_
    obtain ⟨hfields, hfragments⟩ := hf conditions e hi hent
    simp only [lowerEntered, hfields, hfragments]

theorem lowerPlaceWith_congr (hf : ∀ type keys, fields type keys s = fields' type keys s)
    (hg : ∀ around, fragments around s = fragments' around s) (place : Place) :
    lowerPlaceWith pass fields fragments place s = lowerPlaceWith pass fields' fragments' place s := by
  simp only [lowerPlaceWith, hf, hg]

end Steps

/-- Where nothing is selected, nothing is lowered, whatever the bound. -/
theorem lowerings_of_nil (pass : Pass) (registry : Registry) {s : Selected}
    (hs : s.selections = []) (n : Nat) :
    (∀ type keys, lowerFields pass registry n type keys s = .ok []) ∧
      (∀ around, lowerFragments pass registry n around s = .ok []) := by
  have hf : s.fields = [] := by rw [Selected.fields, hs, List.filterMap_nil]
  have hg : s.fragments = [] := by rw [Selected.fragments, hs, List.filterMap_nil]
  cases n with
  | zero => exact ⟨fun _ _ => rfl, fun _ => rfl⟩
  | succ n =>
    constructor
    · intro type keys
      rw [lowerFields, lowerFieldsWith, hf]
      rfl
    · intro around
      rw [lowerFragments, lowerFragmentsWith, hg]
      rfl

/-- **What is known of selections that two registries lower alike under two bounds**: their
fragments are entered alike, it is known of what they call on with smaller bounds, and where
a bound is used up nothing is selected. -/
structure LoweredAlike (r r' : Registry) (known : Nat → Nat → Selected → Prop) : Prop where
  entered : ∀ {n m : Nat} {s : Selected} {f : SelectedFragment}, known n m s → f ∈ s.fragments →
    ∀ type, enter r s type f = enter r' s type f
  calls : ∀ {n m : Nat} {s t : Selected}, known (n + 1) (m + 1) s → Calls r s t →
    t.depth r < s.depth r → t.depth r' < s.depth r' → known n m t
  left : ∀ {m : Nat} {s : Selected}, known 0 m s → s.selections = []
  right : ∀ {n : Nat} {s : Selected}, known n 0 s → s.selections = []

namespace LoweredAlike

variable {r r' : Registry} {known : Nat → Nat → Selected → Prop} {n m : Nat}

/-- **Selections are lowered alike**, call by call. -/
theorem lowerings (h : LoweredAlike r r' known) (pass : Pass) (hs : known n m s) :
    (∀ type keys, lowerFields pass r n type keys s = lowerFields pass r' m type keys s) ∧
      (∀ around, lowerFragments pass r n around s = lowerFragments pass r' m around s) := by
  induction n generalizing m s with
  | zero =>
    obtain ⟨hf, hg⟩ := lowerings_of_nil pass r' (h.left hs) m
    exact ⟨fun type keys => (hf type keys).symm, fun around => (hg around).symm⟩
  | succ n ih =>
    cases m with
    | zero => exact lowerings_of_nil pass r (h.right hs) (n + 1)
    | succ m =>
      constructor
      · intro type keys
        rw [lowerFields, lowerFields, lowerFieldsWith, lowerFieldsWith]
        refine congrArg (· >>= _) (Except.mapM_congr fun g hg => ?_)
        refine lowerField_congr (fun place conditions fs hi hne => ?_) type keys g.key
        -- what is below fields is nested less deep
        have hin : ∀ f ∈ fs, f ∈ s.fields := fun f hf =>
          ((mem_members_iff hg).1 (included_subset hi f hf)).1
        obtain ⟨y, hy⟩ := List.exists_mem_of_ne_nil _ hne
        obtain ⟨f, hf, -⟩ := List.mem_flatMap.1 hy
        have hselects : s.selections ≠ [] := List.ne_nil_of_mem (Selected.mem_fields.1 (hin f hf))
        obtain ⟨hfields, hfragments⟩ := ih (h.calls hs (calls_of_included hg hi hne)
          (depth_below_lt r hin hselects) (depth_below_lt r' hin hselects))
        exact lowerPlaceWith_congr hfields hfragments place
      · intro around
        rw [lowerFragments, lowerFragments, lowerFragmentsWith, lowerFragmentsWith]
        refine congrArg (· >>= _) (Except.mapM_congr fun f hf => ?_)
        have hent : enter r s around.type f = enter r' s around.type f := h.entered hs hf around.type
        refine lowerFragment_congr hent fun conditions e hi he => ?_
        exact ih (h.calls hs (calls_of_enter hf hi he) (depth_enter_lt hf he)
          (depth_enter_lt hf (hent ▸ he)))

/-- So is a place. -/
theorem lowerPlaceWith (h : LoweredAlike r r' known) (pass : Pass) (hs : known n m s)
    (place : Place) :
    lowerPlaceWith pass (lowerFields pass r n) (lowerFragments pass r n) place s =
      lowerPlaceWith pass (lowerFields pass r' m) (lowerFragments pass r' m) place s := by
  obtain ⟨hf, hg⟩ := h.lowerings pass hs
  exact lowerPlaceWith_congr hf hg place

end LoweredAlike

/-- Selections are lowered alike under a bound that the calls do not reach and under one on
their depth. -/
theorem loweredAlike_of_endWithin (registry : Registry) :
    LoweredAlike registry registry fun n m s => EndWithin registry n s ∧ s.depth registry ≤ m where
  entered _ _ _ := rfl
  calls hs hc hlt _ := ⟨hs.1.of_calls hc, by omega⟩
  left hs := absurd hs.1.pos (Nat.lt_irrefl 0)
  right hs := eq_nil_of_depth (Nat.le_zero.1 hs.2)

/-- **Lowering is what it comes to without regard to the bound**, where the calls end: under
any bound that they do not reach, it gives the same. -/
theorem lowerPlaceWith_eq (pass : Pass) (place : Place) {n : Nat} (h : EndWithin registry n s) :
    lowerPlaceWith pass (lowerFields pass registry n) (lowerFragments pass registry n) place s =
      lowerPlace pass registry place s :=
  (loweredAlike_of_endWithin registry).lowerPlaceWith pass ⟨h, Nat.le_refl _⟩ place

end SelectionModel
