import SelectionModel.Proofs.Locality
import SelectionModel.Proofs.Lowering.Comparison
import SelectionModel.Proofs.Lowering.Pruning

/-!
# Excluded selections leave no trace

What directives never let through can be taken out of selections and out of the registry,
at every depth, before they are lowered. This changes the order of fields at most: a
response name keeps the place of its first selection, even if that one is excluded. Where
pruning keeps the order of names, it changes nothing at all, not even the error.

* `lowerField_prune`, `lowerFragment_prune`, `lowerPlaceWith_prune`: fields, fragments and
  places, given what is below them, for any comparison of lowerings.
* `lowerings_prune`: all selections.
* `pruned_lowered`: **for both comparisons.**
-/

namespace SelectionModel

/-! ## What is lowered -/

/-- **Selections that are lowered with some selections**: those themselves, those below the
included fields of one response name, and those in an included fragment. -/
inductive LoweredWithin (r : Registry) : Selected → Selected → Prop where
  | here {s : Selected} : LoweredWithin r s s
  | under {s u : Selected} {name : String} {conditions : List Condition}
      {included : List SelectedField} :
    includedFields s.file (s.named name) = .ok (conditions, included) →
    LoweredWithin r (s.below (included.flatMap SelectedField.selections)) u →
    LoweredWithin r s u
  | inside {s u : Selected} {type : String} {f : SelectedFragment} {conditions : List Condition}
      {e : EnteredFragment} :
    f ∈ s.fragments → inclusion s.file f.directives = .ok (.under conditions) →
    enter r s type f = .ok e → LoweredWithin r e.selected u → LoweredWithin r s u

/-- Pruning keeps the order of response names wherever selections are lowered. -/
def KeepsNameOrder (r : Registry) (s : Selected) : Prop :=
  ∀ u, LoweredWithin r s u → u.prune.names.Sublist u.names

/-- Lowered selections with fields in the order of their response names, at any depth. -/
def sortSelections (lowered : List Field × List Fragment) : List Field × List Fragment :=
  (sortFields lowered.1, sortFragments lowered.2)

variable {pass : Pass} {r : Registry} {c : Comparison} {s : Selected}

/-! ## Names -/

/-- The fields of a name that are left. -/
theorem Selected.named_prune (name : String) :
    s.prune.named name =
      ((s.named name).filter SelectedField.isLeft).map SelectedField.prune := by
  rw [named, named, fields_prune, List.filter_map, List.filter_filter, List.filter_filter]
  exact congrArg _ (List.filter_congr fun f _ => Bool.and_comm _ _)

theorem Selected.names_prune_subset : ∀ name ∈ s.prune.names, name ∈ s.names := by
  intro name h
  obtain ⟨f, hf, rfl⟩ := mem_names.1 h
  rw [fields_prune] at hf
  obtain ⟨g, hg, rfl⟩ := List.mem_map.1 hf
  exact mem_names.2 ⟨g, (List.mem_filter.1 hg).1, rfl⟩

/-- No field is included of a name that is not left. -/
theorem includedFields_of_notMem {name : String} (h : name ∉ s.prune.names) :
    ∃ conditions, includedFields s.file (s.named name) = .ok (conditions, []) := by
  have hnil : s.prune.named name = [] := by
    rw [List.eq_nil_iff_forall_not_mem]
    intro f hf
    obtain ⟨hf, hn⟩ := Selected.mem_named.1 hf
    exact h (Selected.mem_names.2 ⟨f, hf, hn⟩)
  have hprune := includedFields_prune s.file (s.named name)
  rw [← Selected.named_prune, hnil, includedFields] at hprune
  cases hi : includedFields s.file (s.named name) with
  | error e =>
    rw [hi] at hprune
    cases hprune
  | ok result =>
    rw [hi] at hprune
    obtain ⟨conditions, included⟩ := result
    have hincluded : included.map SelectedField.prune = [] :=
      (Prod.mk.inj (Except.ok.inj hprune)).2.symm
    exact ⟨conditions, by rw [List.map_eq_nil_iff.1 hincluded]⟩

section Steps

variable {below below' : PlaceLowering} {fields fields' : FieldsLowering}
  {fragments fragments' : FragmentsLowering}

/-! ## Fields -/

/-- Where nothing is selected below a field, it makes no difference whether it is lowered. -/
theorem bind_lowered_or_nothing {place : Place} {selections : List Selection} {β : Type}
    {f : List Field × List Fragment → Except BuildError β}
    (h : below place (s.below []) = .ok ([], [])) :
    (if selections.isEmpty then pure ([], []) >>= f else below place (s.below selections) >>= f) =
      below place (s.below selections) >>= f := by
  cases selections with
  | nil =>
    rw [h]
    rfl
  | cons x xs => rfl

/-- **A field is lowered before or after pruning**, given what is below it. -/
theorem lowerField_prune (hc : c.Sound pass) {name : String}
    (hb : ∀ place conditions included,
      includedFields s.file (s.named name) = .ok (conditions, included) →
      c.SameSelections (below place (s.below (included.flatMap SelectedField.selections)))
        (below' place (s.below (included.flatMap SelectedField.selections)).prune))
    (hnil : ∀ place, below place (s.below []) = .ok ([], []))
    (hnil' : ∀ place, below' place (s.prune.below []) = .ok ([], []))
    (type : String) (keys : OrderedSet SelectionKey) :
    c.SameField (lowerField pass below type keys s name (s.named name))
      (lowerField pass below' type keys s.prune name (s.prune.named name)) := by
  rw [Selected.named_prune, lowerField, lowerField]
  have hincluded := includedFields_prune s.prune.file (s.named name)
  rw [hincluded, Except.map_bind]
  refine .bind_right hc.errors fun result hi => ?_
  obtain ⟨conditions, included⟩ := result
  cases included with
  | nil => exact .ok rfl
  | cons first rest =>
    rw [List.map_cons]
    dsimp only
    have hhead : first.prune.head = first.head := rfl
    rw [hhead]
    cases pass.schema.field? type first.head.name with
    | none => exact .error (hc.errors _)
    | some definition =>
      refine .bind_right hc.errors fun arguments _ => ?_
      have hselections : (first.prune :: rest.map SelectedField.prune).flatMap
            SelectedField.selections =
          pruneSelections ((first :: rest).flatMap SelectedField.selections) :=
        (pruneSelections_flatMap (first :: rest)).symm
      rw [hselections, bind_lowered_or_nothing (hnil _), bind_lowered_or_nothing (hnil' _)]
      refine .bind (hb _ _ _ hi) fun lowered lowered' _ hlowered => .ok ?_
      obtain ⟨hfields, hfragments⟩ := Prod.mk.inj hlowered
      simp only [Option.map_some, Field.mapBelow, hfields, hfragments]
      rfl

/-- A field is lowered to one of its name. -/
theorem responseName_of_lowerField {name : String} {type : String}
    {keys : OrderedSet SelectionKey} {f : Field}
    (h : lowerField pass below type keys s name (s.named name) = .ok (some f)) :
    f.responseName = name := by
  obtain ⟨conditions, included, hi, hcases⟩ := lowerField_cases h
  cases included with
  | nil => cases hcases
  | cons first rest =>
    obtain ⟨_, _, _, _, -, -, -, hf⟩ := hcases
    obtain rfl := Option.some.inj hf
    have hfirst := included_subset hi first List.mem_cons_self
    exact (Selected.mem_named.1 hfirst).2

/-- **Fields are lowered before or after pruning**, name by name. -/
theorem lowerFieldsWith_prune (hc : c.Sound pass) (ho : c.order s.prune.names s.names)
    (hb : ∀ place name conditions included,
      includedFields s.file (s.named name) = .ok (conditions, included) →
      c.SameSelections (below place (s.below (included.flatMap SelectedField.selections)))
        (below' place (s.below (included.flatMap SelectedField.selections)).prune))
    (hnil : ∀ place, below place (s.below []) = .ok ([], []))
    (hnil' : ∀ place, below' place (s.prune.below []) = .ok ([], []))
    (type : String) (keys : OrderedSet SelectionKey) :
    c.SameFields (lowerFieldsWith pass below type keys s)
      (lowerFieldsWith pass below' type keys s.prune) := by
  rw [lowerFieldsWith_eq, lowerFieldsWith_eq]
  refine hc.gather
    { nodup := s.nodup_names
      nodup' := s.prune.nodup_names
      subset := Selected.names_prune_subset
      order := ho
      named := fun name f => responseName_of_lowerField
      named' := fun name f => responseName_of_lowerField
      alike := fun name _ =>
        lowerField_prune hc (fun place => hb place name) hnil hnil' type keys
      skipped := fun name _ hname => ?_ }
  obtain ⟨conditions, hi⟩ := includedFields_of_notMem hname
  rw [lowerField, hi]
  rfl

/-! ## Fragments -/

/-- The surroundings of fragments with other fields. -/
def Enclosing.withFields (around : Enclosing) (fields : List Field) : Enclosing :=
  { around with fields := fields }

/-- **Two lowerings agree on some selections**, which one of them gets when they are
pruned. Fragments are lowered in surroundings of the same form. -/
structure Comparison.AgreeOnPruned (c : Comparison) (fields fields' : FieldsLowering)
    (fragments fragments' : FragmentsLowering) (s : Selected) : Prop where
  onFields : ∀ type keys, c.SameFields (fields type keys s) (fields' type keys s.prune)
  onFragments : ∀ (around : Enclosing) (fs : List Field), c.form around.fields = c.form fs →
    c.SameInterfaces (fragments around s) (fragments' (around.withFields fs) s.prune)

/-- **What is lowered in an entered fragment**, before or after pruning. -/
theorem lowerEntered_prune (hc : c.Sound pass) {e : EnteredFragment} {around : Enclosing}
    {fs : List Field} (ha : c.form around.fields = c.form fs) (conditions : List Condition)
    (he : c.AgreeOnPruned fields fields' fragments fragments' e.selected) :
    c.SameInterfaces (lowerEntered pass fields fragments around conditions e)
      (lowerEntered pass fields' fragments' (around.withFields fs) conditions e.prune) := by
  rw [lowerEntered, lowerEntered]
  have htype : e.prune.typeCondition = e.typeCondition := rfl
  rw [htype]
  by_cases ht : (pass.schema.type? e.typeCondition).isNone = true
  · rw [if_pos ht, if_pos ht]
    exact .error (hc.errors _)
  · rw [if_neg ht, if_neg ht]
    refine .bind (he.onFields _ _) fun own own' _ hown => ?_
    have hmerged := hc.respects.merge (hc.respects.append
      (hc.respects.inherit (rebasedKeys around.keys e.typeCondition) ha) hown)
    refine .bind (he.onFragments ⟨_, _, _, _⟩ _ hmerged) fun nested nested' _ hnested => .ok ?_
    rw [List.map_cons, List.map_cons, hnested]
    refine congrArg (· :: _) ?_
    simp only [Interface.mapFields, hmerged]
    rfl

/-- **A fragment is lowered before or after pruning**, given what is in it. -/
theorem lowerFragment_prune (hc : c.Sound pass) {f : SelectedFragment} {around : Enclosing}
    {fs : List Field} (ha : c.form around.fields = c.form fs)
    (he : ∀ conditions e, inclusion s.file f.directives = .ok (.under conditions) →
      enter r s around.type f = .ok e →
      c.AgreeOnPruned fields fields' fragments fragments' e.selected) :
    c.SameInterfaces (lowerFragment pass r fields fragments around s f)
      (lowerFragment pass r.prune fields' fragments' (around.withFields fs) s.prune f.prune) := by
  rw [lowerFragment, lowerFragment]
  refine .bind_right hc.errors fun inclusion hi => ?_
  cases inclusion with
  | never => exact .ok rfl
  | under conditions =>
    dsimp only
    have henter : enter r.prune s.prune (around.withFields fs).type f.prune =
        (enter r s around.type f).map EnteredFragment.prune := enter_prune r s around.type f
    rw [henter, Except.map_bind]
    refine .bind_right hc.errors fun e hentered => ?_
    exact lowerEntered_prune hc ha conditions (he conditions e hi hentered)

/-- A fragment that is not left gives nothing. -/
theorem lowerFragment_of_not_isLeft {f : SelectedFragment} {around : Enclosing}
    (h : f.isLeft = false) : lowerFragment pass r fields fragments around s f = .ok [] := by
  have hnever : neverIncluded f.directives = true := by
    rwa [SelectedFragment.isLeft, Bool.not_eq_false'] at h
  rw [lowerFragment, neverIncluded_iff.1 hnever]
  rfl

/-- Fragments one after the other, some of which give nothing and are left out. -/
theorem mapM_prune {step step' : SelectedFragment → Except BuildError (List Interface)}
    (l : List SelectedFragment)
    (h : ∀ f ∈ l, c.SameInterfaces (step f) (step' f.prune))
    (hn : ∀ f, f.isLeft = false → step f = .ok []) :
    c.SameInterfaces (l.mapM step >>= fun is => pure is.flatten)
      (((l.filter SelectedFragment.isLeft).map SelectedFragment.prune).mapM step' >>=
        fun is => pure is.flatten) := by
  induction l with
  | nil => exact .ok rfl
  | cons f l ih =>
    obtain ⟨hf, hl⟩ := List.forall_mem_cons.1 h
    have hrest := ih hl
    rw [Except.mapM_flatten_cons]
    cases hleft : f.isLeft with
    | false =>
      rw [List.filter_cons_of_neg (by simp [hleft]), hn f hleft]
      exact (bind_pure (l.mapM step >>= fun is => pure is.flatten)).symm ▸ hrest
    | true =>
      rw [List.filter_cons_of_pos hleft, List.map_cons, Except.mapM_flatten_cons]
      refine .bind hf fun is js _ hi => .bind hrest fun is' js' _ hj => .ok ?_
      rw [List.map_append, List.map_append, hi, hj]

theorem lowerFragmentsWith_prune (hc : c.Sound pass) {around : Enclosing} {fs : List Field}
    (ha : c.form around.fields = c.form fs)
    (he : ∀ f ∈ s.fragments, ∀ conditions e,
      inclusion s.file f.directives = .ok (.under conditions) → enter r s around.type f = .ok e →
      c.AgreeOnPruned fields fields' fragments fragments' e.selected) :
    c.SameInterfaces (lowerFragmentsWith pass r fields fragments around s)
      (lowerFragmentsWith pass r.prune fields' fragments' (around.withFields fs) s.prune) := by
  rw [lowerFragmentsWith, lowerFragmentsWith, Selected.fragments_prune]
  refine mapM_prune s.fragments (fun f hf => ?_) fun f => lowerFragment_of_not_isLeft
  exact lowerFragment_prune hc ha (he f hf)

/-! ## Places -/

/-- **A place is lowered before or after pruning**, given its fields and fragments. -/
theorem lowerPlaceWith_prune (hc : c.Sound pass)
    (h : c.AgreeOnPruned fields fields' fragments fragments' s) (place : Place) :
    c.SameSelections (lowerPlaceWith pass fields fragments place s)
      (lowerPlaceWith pass fields' fragments' place s.prune) := by
  rw [lowerPlaceWith, lowerPlaceWith]
  refine .bind (h.onFields _ _) fun own own' _ hown => ?_
  refine .bind (h.onFragments (place.enclosing pass own) own' hown) fun is js _ hi => .ok ?_
  have hinterfaces := map_mergeInterfaces_congr hc.respects hi
  have hsite : c.form (place.site pass own).fields = c.form own' := hown
  have hfragments := map_assemble_congr hc.respects hsite hinterfaces pass
  exact Prod.ext hown hfragments

theorem lowerPlaceWith_of_nil (hf : ∀ type keys, fields type keys s = .ok [])
    (hg : ∀ around, fragments around s = .ok []) (place : Place) :
    lowerPlaceWith pass fields fragments place s = .ok ([], []) := by
  have hassemble : ∀ site, assemble pass (mergeFields pass) [] site = [] := by
    intro site
    rw [assemble, implementations_nil]
    split <;> rfl
  simp only [lowerPlaceWith, hf, hg, bind, Except.bind]
  exact congrArg (fun gs => Except.ok ([], gs)) (hassemble _)

end Steps

/-! ## All selections -/

/-- Under any bound, nothing is lowered at a place where nothing is selected. -/
theorem lowerPlaceWith_below_nil (pass : Pass) (r : Registry) (n : Nat) (s : Selected)
    (place : Place) :
    lowerPlaceWith pass (lowerFields pass r n) (lowerFragments pass r n) place (s.below []) =
      .ok ([], []) := by
  have hnil : (s.below []).selections = [] := rfl
  obtain ⟨hf, hg⟩ := lowerings_of_nil pass r hnil n
  exact lowerPlaceWith_of_nil hf hg place

/-- **Selections are lowered before or after pruning**, under any bound on their depth. -/
theorem lowerings_prune (hc : c.Sound pass) (n : Nat) : ∀ s : Selected,
    (∀ u, LoweredWithin r s u → c.order u.prune.names u.names) →
    c.AgreeOnPruned (lowerFields pass r n) (lowerFields pass r.prune n) (lowerFragments pass r n)
      (lowerFragments pass r.prune n) s := by
  induction n with
  | zero => exact fun s _ => ⟨fun _ _ => .ok rfl, fun _ _ _ => .ok rfl⟩
  | succ n ih =>
    intro s ho
    constructor
    · intro type keys
      rw [lowerFields, lowerFields]
      refine lowerFieldsWith_prune hc (ho s .here) (fun place name conditions included hi => ?_)
        (lowerPlaceWith_below_nil pass r n s) (lowerPlaceWith_below_nil pass r.prune n s.prune)
        type keys
      exact lowerPlaceWith_prune hc (ih _ fun u hu => ho u (.under hi hu)) place
    · intro around fs ha
      rw [lowerFragments, lowerFragments]
      refine lowerFragmentsWith_prune hc ha fun f hf conditions e hi he => ?_
      exact ih _ fun u hu => ho u (.inside hf hi he hu)

/-- **A place is lowered before or after pruning.** -/
theorem lowerPlace_prune (hc : c.Sound pass)
    (ho : ∀ u, LoweredWithin r s u → c.order u.prune.names u.names) (place : Place) :
    c.SameSelections (lowerPlace pass r place s) (lowerPlace pass r.prune place s.prune) := by
  -- the bound of the selections suffices for the pruned ones
  have hagree : r.prune.AgreesOn r.prune s.prune.spreads := fun _ _ => rfl
  have hbound : lowerPlace pass r.prune place s.prune =
      lowerPlaceWith pass (lowerFields pass r.prune (s.depth r))
        (lowerFragments pass r.prune (s.depth r)) place s.prune :=
    (loweredAlike_of_agreesOn r.prune r.prune).lowerPlaceWith pass
      ⟨Nat.le_refl _, s.depth_prune_le r, hagree⟩ place
  rw [hbound]
  exact lowerPlaceWith_prune hc (lowerings_prune hc (s.depth r) s ho) place

theorem sortSelections_eq : sortSelections = mapSelections sortFields := by
  funext lowered
  rw [sortSelections, sortFragments_eq_map]
  rfl

theorem mapSelections_id : mapSelections id = id := by
  funext lowered
  rw [mapSelections, Fragment.mapFields_id, List.map_id]
  rfl

/-- **Excluded selections leave no trace but the place of a response name.** Pruned
selections are lowered with a pruned registry exactly if the original ones are, and then to
the same fields and fragments up to the order of the fields in each list, at any depth. If
pruning keeps the order of response names wherever selections are lowered, both give the
same, in the same order, or fail with the same error. -/
theorem pruned_lowered (pass : Pass) (r : Registry) (place : Place) (s : Selected) :
    (lowerPlace pass r.prune place s.prune).toOption.map sortSelections =
        (lowerPlace pass r place s).toOption.map sortSelections ∧
      (KeepsNameOrder r s → lowerPlace pass r.prune place s.prune = lowerPlace pass r place s) := by
  constructor
  · have h := lowerPlace_prune (r := r) (s := s) (Comparison.sound_unordered pass)
      (fun _ _ => trivial) place
    rw [sortSelections_eq]
    exact h.toOption_eq.symm
  · intro ho
    have h := lowerPlace_prune (r := r) (s := s) (Comparison.sound_exact pass) ho place
    refine (h.eq ?_).symm
    rw [show Comparison.exact.form = id from rfl, mapSelections_id]
    exact Function.injective_id

/-! ## Samples -/

/-- Where nothing is selected, nothing else is lowered. -/
theorem LoweredWithin.selections_eq_nil {u : Selected} (h : LoweredWithin r s u)
    (hs : s.selections = []) : u.selections = [] := by
  have hf : s.fields = [] := by rw [Selected.fields, hs]; rfl
  have hg : s.fragments = [] := by rw [Selected.fragments, hs]; rfl
  induction h with
  | here => exact hs
  | @under s u name _ included hi _ ih =>
    have hincluded : included = [] := by
      rw [List.eq_nil_iff_forall_not_mem]
      intro f hmem
      have hin := (Selected.mem_named.1 (included_subset hi f hmem)).1
      rw [hf] at hin
      cases hin
    subst hincluded
    exact ih rfl rfl rfl
  | inside hmem =>
    rw [hg] at hmem
    cases hmem

namespace Sample

/-- A directive that excludes its selection. -/
def skip : Directive := ⟨⟨1, 1⟩, "skip", [("if", .boolean true)]⟩

/-- A field of a type, selected under another name. -/
def selectAs (aliasName name : String) (directives : List Directive) : Selection :=
  .field ⟨⟨1, 1⟩, some aliasName, name, [], directives⟩ []

/-- `x: id  y: id  x: id @skip(if: true)  ...F @skip(if: true)`. -/
def excludedLast : Selected :=
  .ofFile none [selectAs "x" "id" [], selectAs "y" "id" [], selectAs "x" "id" [skip],
    .spread ⟨1, 1⟩ "F" [skip]]

/-- `x: id @skip(if: true)  y: id  x: id`. -/
def excludedFirst : Selected :=
  .ofFile none [selectAs "x" "id" [skip], selectAs "y" "id" [], selectAs "x" "id" []]

/-- `x: id @skip(if: true)  y: lost  x: missing`, where no type has such fields. -/
def excludedBeforeErrors : Selected :=
  .ofFile none [selectAs "x" "id" [skip], selectAs "y" "lost" [], selectAs "x" "missing" []]

/-- An excluded selection that stands last does not change the order of names. -/
theorem keepsNameOrder_excludedLast : KeepsNameOrder registry excludedLast := by
  intro u hu
  cases hu with
  | here => decide +kernel
  | @under _ _ _ _ included hi hu =>
    -- nothing is selected below the fields
    have hnil : included.flatMap SelectedField.selections = [] := by
      rw [List.flatMap_eq_nil_iff]
      intro f hf
      have hall : ∀ g ∈ excludedLast.fields, g.selections = [] := by
        rintro g (_ | ⟨_, _ | ⟨_, _ | ⟨_, hg⟩⟩⟩)
        · rfl
        · rfl
        · rfl
        · cases hg
      exact hall f (Selected.mem_named.1 (included_subset hi f hf)).1
    have hu : u.selections = [] := hu.selections_eq_nil hnil
    have hfields : u.prune.fields = [] := by
      rw [Selected.fields, Selected.prune, hu, pruneSelections]
      rfl
    rw [Selected.names, Selected.groups, hfields]
    exact List.nil_sublist _
  | @inside _ _ _ f _ _ hf hi =>
    obtain rfl := List.mem_singleton.1 hf
    cases hi

end Sample

/-- The selections of the sample that are lowered alike before and after pruning. -/
theorem sample_pruned_lowered :
    KeepsNameOrder Sample.registry Sample.excludedLast ∧
      lowerPlace ⟨Sample.schema, true⟩ Sample.registry.prune Sample.nodePlace
          Sample.excludedLast.prune =
        lowerPlace ⟨Sample.schema, true⟩ Sample.registry Sample.nodePlace Sample.excludedLast := by
  have h := pruned_lowered ⟨Sample.schema, true⟩ Sample.registry Sample.nodePlace
    Sample.excludedLast
  exact ⟨Sample.keepsNameOrder_excludedLast, h.2 Sample.keepsNameOrder_excludedLast⟩

theorem names_excludedFirst :
    (lowerPlace ⟨Sample.schema, true⟩ Sample.registry Sample.nodePlace
        Sample.excludedFirst).toOption.map (fun lowered => lowered.1.map Field.responseName) =
      some ["x", "y"] := by decide +kernel

theorem names_excludedFirst_prune :
    (lowerPlace ⟨Sample.schema, true⟩ Sample.registry.prune Sample.nodePlace
        Sample.excludedFirst.prune).toOption.map (fun lowered => lowered.1.map Field.responseName) =
      some ["y", "x"] := by decide +kernel

theorem error_excludedBeforeErrors :
    lowerPlace ⟨Sample.schema, true⟩ Sample.registry Sample.nodePlace Sample.excludedBeforeErrors =
      .error (.undefinedField "missing" "N" (.executable ⟨none, ⟨1, 1⟩⟩)) := rfl

theorem error_excludedBeforeErrors_prune :
    lowerPlace ⟨Sample.schema, true⟩ Sample.registry.prune Sample.nodePlace
        Sample.excludedBeforeErrors.prune =
      .error (.undefinedField "lost" "N" (.executable ⟨none, ⟨1, 1⟩⟩)) := rfl

/-- **An excluded selection leaves the place of its response name.** Pruning can change the
order of fields, and which of two errors comes first. -/
theorem excluded_leaves_place :
    lowerPlace ⟨Sample.schema, true⟩ Sample.registry.prune Sample.nodePlace
        Sample.excludedFirst.prune ≠
      lowerPlace ⟨Sample.schema, true⟩ Sample.registry Sample.nodePlace Sample.excludedFirst ∧
    lowerPlace ⟨Sample.schema, true⟩ Sample.registry.prune Sample.nodePlace
        Sample.excludedBeforeErrors.prune ≠
      lowerPlace ⟨Sample.schema, true⟩ Sample.registry Sample.nodePlace
        Sample.excludedBeforeErrors := by
  constructor
  · intro h
    have hnames := names_excludedFirst
    rw [← h, names_excludedFirst_prune] at hnames
    exact absurd hnames (by decide)
  · rw [error_excludedBeforeErrors, error_excludedBeforeErrors_prune]
    intro h
    have herror := BuildError.undefinedField.inj (Except.error.inj h)
    exact absurd herror.1 (by decide)

end SelectionModel
