import SelectionModel.Proofs.Lowering.Derivation
import SelectionModel.Proofs.Merging.Order

/-!
# Comparing lowerings

Two lowerings can be compared exactly, or up to the order of fields and without a look at
which error there is. Both comparisons get along with every step of a lowering. They differ
in how the response names of the two may be arranged.

* `lowerFieldsWith_eq`: fields are lowered name by name.
* `Comparison.sound_exact`, `Comparison.sound_unordered`: **the two comparisons.**
-/

namespace SelectionModel

/-! ## Names -/

/-- The fields of a response name among selections. -/
def Selected.named (s : Selected) (name : String) : List SelectedField :=
  s.fields.filter fun f => decide (f.head.responseName = name)

/-- The response names of the fields among selections, in the order of the first ones. -/
def Selected.names (s : Selected) : List String := s.groups.map Group.key

theorem Selected.nodup_names (s : Selected) : s.names.Nodup := keys_nodup_groupBy _ _

theorem Selected.mem_names {s : Selected} {name : String} :
    name ∈ s.names ↔ ∃ f ∈ s.fields, f.head.responseName = name := by
  rw [names, groups, mem_keys_groupBy, List.mem_map]

theorem Selected.mem_named {s : Selected} {name : String} {f : SelectedField} :
    f ∈ s.named name ↔ f ∈ s.fields ∧ f.head.responseName = name := by
  rw [named, List.mem_filter, decide_eq_true_eq]

/-- Gathers what steps give for some names, where they give a field. -/
def gather (names : List String) (step : String → Except BuildError (Option Field)) :
    Except BuildError (List Field) := do
  let fields ← names.mapM step
  return fields.filterMap id

/-- **Fields are lowered name by name.** -/
theorem lowerFieldsWith_eq (pass : Pass) (below : PlaceLowering) (type : String)
    (keys : OrderedSet SelectionKey) (s : Selected) :
    lowerFieldsWith pass below type keys s =
      gather s.names fun name => lowerField pass below type keys s name (s.named name) := by
  have hgroups : s.groups.mapM (fun g => lowerField pass below type keys s g.key g.members) =
      s.names.mapM fun name => lowerField pass below type keys s name (s.named name) := by
    rw [Selected.names, List.mapM_map]
    exact Except.mapM_congr fun g hg => by rw [members_eq_filter hg]; rfl
  exact congrArg (· >>= _) hgroups

section Gather

variable {names : List String} {step : String → Except BuildError (Option Field)}

/-- The field that a step gives for a name, if any. -/
def found (step : String → Except BuildError (Option Field)) (name : String) : Option Field :=
  (step name).toOption.join

theorem found_eq_some {name : String} {f : Field} :
    found step name = some f ↔ step name = .ok (some f) := by
  rw [found]
  cases step name <;> simp [Except.toOption]

theorem gather_cons (name : String) :
    gather (name :: names) step = do
      let field ← step name
      let fields ← gather names step
      return field.toList ++ fields := by
  rw [gather, List.mapM_cons]
  cases step name with
  | error e => rfl
  | ok field =>
    simp only [gather]
    cases names.mapM step with
    | error e => rfl
    | ok fields => cases field <;> rfl

theorem gather_eq_ok {fs : List Field} :
    gather names step = .ok fs ↔
      (∀ name ∈ names, ∃ field, step name = .ok field) ∧ fs = names.filterMap (found step) := by
  induction names generalizing fs with
  | nil =>
    rw [List.filterMap_nil]
    exact ⟨fun h => ⟨by simp, (Except.ok.inj h).symm⟩, fun h => congrArg _ h.2.symm⟩
  | cons name names ih =>
    rw [gather_cons, Except.bind_eq_ok, List.forall_mem_cons]
    constructor
    · rintro ⟨field, hfield, h⟩
      obtain ⟨rest, hrest, h⟩ := Except.bind_eq_ok.1 h
      obtain ⟨hall, rfl⟩ := ih.1 hrest
      obtain rfl := Except.ok.inj h
      refine ⟨⟨⟨field, hfield⟩, hall⟩, ?_⟩
      have hfound : found step name = field := by rw [found, hfield]; rfl
      cases field <;> simp [hfound]
    · rintro ⟨⟨⟨field, hfield⟩, hall⟩, rfl⟩
      refine ⟨field, hfield, Except.bind_eq_ok.2 ⟨_, ih.2 ⟨hall, rfl⟩, ?_⟩⟩
      have hfound : found step name = field := by rw [found, hfield]; rfl
      cases field <;> simp [hfound, pure, Except.pure]

theorem exists_gather_eq_ok :
    (∃ fs, gather names step = .ok fs) ↔ ∀ name ∈ names, ∃ field, step name = .ok field :=
  ⟨fun ⟨_, h⟩ => (gather_eq_ok.1 h).1, fun h => ⟨_, gather_eq_ok.2 ⟨h, rfl⟩⟩⟩

/-- The fields of a name are what was found for it. -/
theorem fieldsNamed_filterMap {find : String → Option Field} (hn : names.Nodup)
    (hfind : ∀ name f, find name = some f → f.responseName = name) (name : String) :
    fieldsNamed name (names.filterMap find) =
      if name ∈ names then (find name).toList else [] := by
  induction names with
  | nil => rfl
  | cons first names ih =>
    obtain ⟨hfirst, hn⟩ := List.nodup_cons.1 hn
    have hrest := ih hn
    by_cases he : name = first
    · subst he
      rw [if_neg hfirst] at hrest
      rw [if_pos List.mem_cons_self]
      cases hf : find name with
      | none => rw [List.filterMap_cons_none hf, hrest]; rfl
      | some f =>
        obtain rfl := hfind name f hf
        rw [List.filterMap_cons_some hf, fieldsNamed_cons_self, hrest]
        rfl
    · have hmem : name ∈ first :: names ↔ name ∈ names := by simp [he]
      rw [if_congr hmem rfl rfl, ← hrest]
      cases hf : find first with
      | none => rw [List.filterMap_cons_none hf]
      | some f =>
        have hne : f.responseName ≠ name := by
          rw [hfind first f hf]
          exact fun h => he h.symm
        rw [List.filterMap_cons_some hf, fieldsNamed_cons_of_ne hne]

/-- Names that give no field can be left out. -/
theorem gather_eq_of_sublist {names' : List String}
    {step' : String → Except BuildError (Option Field)} (h : names'.Sublist names)
    (hn : names.Nodup) (he : ∀ name ∈ names', step name = step' name)
    (hs : ∀ name ∈ names, name ∉ names' → step name = .ok none) :
    gather names step = gather names' step' := by
  induction h with
  | slnil => rfl
  | @cons _ rest name h ih =>
    obtain ⟨hname, hn⟩ := List.nodup_cons.1 hn
    have hskip := hs name List.mem_cons_self fun hmem => hname (h.mem hmem)
    have hrest := ih hn he fun n hmem => hs n (List.mem_cons_of_mem _ hmem)
    have hnil : gather (name :: rest) step = gather rest step >>= fun fs => pure ([] ++ fs) := by
      rw [gather_cons, hskip]
      rfl
    rw [hnil, ← hrest]
    exact bind_pure _
  | cons_cons name h ih =>
    obtain ⟨hname, hn⟩ := List.nodup_cons.1 hn
    obtain ⟨hfirst, he⟩ := List.forall_mem_cons.1 he
    have hrest := ih hn he fun n hmem hnot => hs n (List.mem_cons_of_mem _ hmem) fun hmem' => by
      rcases List.mem_cons.1 hmem' with rfl | hmem'
      · exact hname hmem
      · exact hnot hmem'
    rw [gather_cons, gather_cons, hfirst, hrest]

end Gather

/-! ## Comparisons -/

/-- **A comparison of two lowerings**: which errors are alike, up to which form fields are,
and how the response names of one of them may stand in those of the other. -/
structure Comparison where
  errors : BuildError → BuildError → Prop
  form : List Field → List Field
  order : List String → List String → Prop

/-- Lowered selections with a function applied to each list of fields. -/
def mapSelections (form : List Field → List Field) (lowered : List Field × List Fragment) :
    List Field × List Fragment :=
  (form lowered.1, lowered.2.map (Fragment.mapFields form))

namespace Comparison

variable (c : Comparison)

/-- The same is lowered for a response name. -/
abbrev SameField : (x y : Except BuildError (Option Field)) → Prop :=
  Except.SameUpTo c.errors (Option.map (Field.mapBelow c.form))

/-- The same fields are lowered. -/
abbrev SameFields : (x y : Except BuildError (List Field)) → Prop :=
  Except.SameUpTo c.errors c.form

/-- The same fragments are lowered. -/
abbrev SameInterfaces : (x y : Except BuildError (List Interface)) → Prop :=
  Except.SameUpTo c.errors (List.map (Interface.mapFields c.form))

/-- The same is lowered at a place. -/
abbrev SameSelections : (x y : Except BuildError (List Field × List Fragment)) → Prop :=
  Except.SameUpTo c.errors (mapSelections c.form)

end Comparison

/-- Two ways to look up fields by name, of which one skips names that give no field. -/
structure Comparison.Agree (c : Comparison) (names names' : List String)
    (step step' : String → Except BuildError (Option Field)) : Prop where
  nodup : names.Nodup
  nodup' : names'.Nodup
  subset : ∀ name ∈ names', name ∈ names
  order : c.order names' names
  named : ∀ name f, step name = .ok (some f) → f.responseName = name
  named' : ∀ name f, step' name = .ok (some f) → f.responseName = name
  alike : ∀ name ∈ names', c.SameField (step name) (step' name)
  skipped : ∀ name ∈ names, name ∉ names' → step name = .ok none

/-- **A comparison gets along with every step of a lowering.** -/
structure Comparison.Sound (c : Comparison) (pass : Pass) : Prop where
  errors : ∀ e, c.errors e e
  respects : Respects (mergeFields pass) c.form
  gather : ∀ {names names' step step'}, c.Agree names names' step step' →
    c.SameFields (gather names step) (gather names' step')

namespace Comparison

/-- Equal errors and equal fields. The response names of one lowering may be fewer. -/
def exact : Comparison := ⟨Eq, id, List.Sublist⟩

/-- Any errors, and fields up to their order. -/
def unordered : Comparison := ⟨fun _ _ => True, sortFields, fun _ _ => True⟩

theorem sound_exact (pass : Pass) : exact.Sound pass where
  errors _ := rfl
  respects := respects_id _
  gather {names names' step step'} h := by
    have hstep : ∀ name ∈ names', step name = step' name := by
      intro name hname
      refine (h.alike name hname).eq fun o o' ho => ?_
      rw [show exact.form = id from rfl, Field.mapBelow_id, Option.map_id] at ho
      exact ho
    rw [gather_eq_of_sublist h.order h.nodup hstep h.skipped]
    exact .refl (fun _ => rfl) _

/-- What is found for a name is of the same form. -/
theorem map_sorted_found {names names' : List String}
    {step step' : String → Except BuildError (Option Field)}
    (h : unordered.Agree names names' step step') {name : String} (hname : name ∈ names') :
    (found step name).map Field.sorted = (found step' name).map Field.sorted := by
  have halike := h.alike name hname
  rw [funext Field.sorted_eq, found, found]
  generalize step name = x at halike ⊢
  generalize step' name = y at halike ⊢
  cases halike with
  | error _ => rfl
  | ok ho => exact ho

theorem sound_unordered (pass : Pass) : unordered.Sound pass where
  errors _ := trivial
  respects := respects_sortFields pass
  gather {names names' step step'} h := by
    refine .of_exists_ok_iff ?_ fun fs fs' hfs hfs' => ?_
    · rw [exists_gather_eq_ok, exists_gather_eq_ok]
      constructor
      · intro hall name hname
        exact (h.alike name hname).exists_ok_iff.1 (hall name (h.subset name hname))
      · intro hall name hname
        by_cases hmem : name ∈ names'
        · exact (h.alike name hmem).exists_ok_iff.2 (hall name hmem)
        · exact ⟨none, h.skipped name hname hmem⟩
    · obtain ⟨-, rfl⟩ := gather_eq_ok.1 hfs
      obtain ⟨-, rfl⟩ := gather_eq_ok.1 hfs'
      refine sortFields_eq_iff.2 fun name => ?_
      rw [fieldsNamed_filterMap h.nodup fun n f hf => h.named n f (found_eq_some.1 hf),
        fieldsNamed_filterMap h.nodup' fun n f hf => h.named' n f (found_eq_some.1 hf)]
      by_cases hmem : name ∈ names'
      · have hfound := congrArg Option.toList (map_sorted_found h hmem)
        rw [if_pos hmem, if_pos (h.subset name hmem), ← Option.toList_map, ← Option.toList_map]
        exact hfound
      · rw [if_neg hmem]
        split
        · next hname =>
          have hskip : found step name = none := by rw [found, h.skipped name hname hmem]; rfl
          rw [hskip]
          rfl
        · rfl

end Comparison

end SelectionModel
