import SelectionModel.Proofs.Lowering.Pruning
import SelectionModel.Proofs.Lowering.Scopes

/-!
# Where lowering fails

Lowering fails at one selection: at a directive of it, at the look-up of its field or of its
fragment, at one of its arguments, or because there is no type to enter it on.

* `inclusion_eq_error`, `coerceArguments_eq_error`, `enter_eq_error`: the errors of these
  steps, by what is wrong.
* `StepsFailWith`: what the steps fail with, for selections on a type with a property.
* `StepsFailWith.failsWith_lowerPlace`: **lowering fails with what its steps fail with**, if the
  property is handed on.
-/

namespace SelectionModel

/-! ## What is wrong at a step -/

/-- A directive has one argument, which is no condition. -/
structure Directive.Misused (d : Directive) : Prop where
  conditional : (exclusionValue? d.name).isSome
  argument : ∃ name value, d.arguments = [(name, value)] ∧ (∀ b, value ≠ .boolean b) ∧
    ∀ v, value ≠ .variable v

/-- **Directives are an error because of one of them.** -/
theorem inclusion_eq_error {file : Option String} {directives : List Directive} {e : BuildError}
    (h : inclusion file directives = .error e) :
    ∃ d ∈ directives, d.Misused ∧
      e = .invalidDirectiveArgument d.name (.executable ⟨file, d.position⟩) := by
  have hfrom : ∀ conditions, inclusionFrom file conditions directives = .error e →
      ∃ d ∈ directives, d.Misused ∧
        e = .invalidDirectiveArgument d.name (.executable ⟨file, d.position⟩) := by
    clear h
    induction directives with
    | nil => exact fun _ h => by cases h
    | cons d ds ih =>
      have later : ∀ conditions, inclusionFrom file conditions ds = .error e →
          ∃ d' ∈ d :: ds, d'.Misused ∧
            e = .invalidDirectiveArgument d'.name (.executable ⟨file, d'.position⟩) := by
        intro conditions h
        obtain ⟨d', hd, hmisused⟩ := ih conditions h
        exact ⟨d', List.mem_cons_of_mem d hd, hmisused⟩
      intro conditions h
      rw [inclusionFrom] at h
      split at h
      next excluded name value hx ha =>
        split at h
        · split at h
          · cases h
          · exact later _ h
        · exact later _ h
        next hb hv =>
          refine ⟨d, List.mem_cons_self, ⟨?_, name, value, ha, hb, hv⟩, (Except.error.inj h).symm⟩
          rw [hx]
          rfl
      · exact later _ h
  exact hfrom [] h

/-- What is wrong about an argument of a field: the field does not have it, or its value does
not fit. -/
def FieldDefinition.Rejects (schema : Schema) (field : FieldDefinition) (name : String)
    (value : Value) (reason : CoercionError) : Prop :=
  match field.arguments.find? fun a => a.name == name with
  | none => reason = .unknownArgument field.name
  | some a => coerceValue schema value a.type = .error reason

/-- **Arguments are an error because of one of them.** -/
theorem coerceArguments_eq_error {schema : Schema} {field : FieldDefinition}
    {location : SourceLocation} {arguments : List (String × Value)} {e : BuildError}
    (h : coerceArguments schema field location arguments = .error e) :
    ∃ a ∈ arguments, ∃ reason, field.Rejects schema a.1 a.2 reason ∧
      e = .argumentCoercion a.1 reason location := by
  induction arguments with
  | nil => cases h
  | cons a rest ih =>
    obtain ⟨name, value⟩ := a
    rw [coerceArguments] at h
    split at h
    next hn =>
      refine ⟨_, List.mem_cons_self, .unknownArgument field.name, ?_, (Except.error.inj h).symm⟩
      unfold FieldDefinition.Rejects
      rw [hn]
    next definition hd =>
      split at h
      next reason hr =>
        refine ⟨_, List.mem_cons_self, reason, ?_, (Except.error.inj h).symm⟩
        unfold FieldDefinition.Rejects
        rw [hd]
        exact hr
      next v hv =>
        cases hrest : coerceArguments schema field location rest with
        | ok as =>
          rw [hrest] at h
          cases h
        | error e' =>
          rw [hrest] at h
          obtain rfl := Except.error.inj h
          obtain ⟨b, hb, hreason⟩ := ih hrest
          exact ⟨b, List.mem_cons_of_mem _ hb, hreason⟩

variable {registry : Registry} {type : String} {s : Selected}

/-- **A fragment is not entered** because it is not registered, or inside of itself. -/
theorem enter_eq_error {f : SelectedFragment} {e : BuildError} (hf : f ∈ s.fragments)
    (h : enter registry s type f = .error e) :
    ∃ name, .spread f.position name f.directives ∈ s.selections ∧
      (registry.get? name = none ∧ e = .undefinedFragment name (s.location f.position) ∨
        (∃ d, registry.get? name = some d) ∧ name ∈ s.enclosing ∧
          e = .cyclicFragment name (s.location f.position)) := by
  obtain ⟨x, hx, hxf⟩ := List.mem_filterMap.1 hf
  cases x with
  | field head selections => cases hxf
  | inlineFragment position condition directives selections =>
    obtain rfl := Option.some.inj hxf
    cases h
  | spread position name directives =>
    obtain rfl := Option.some.inj hxf
    refine ⟨name, hx, ?_⟩
    simp only [enter] at h
    split at h
    next hn => exact .inl ⟨hn, (Except.error.inj h).symm⟩
    next d hd =>
      split at h
      next hm => exact .inr ⟨⟨d, hd⟩, hm, (Except.error.inj h).symm⟩
      · cases h

/-- The directives of a fragment are those of a selection. -/
theorem Selected.exists_directives {f : SelectedFragment} (h : f ∈ s.fragments) :
    ∃ x ∈ s.selections, x.directives = f.directives := by
  obtain ⟨x, hx, hxf⟩ := List.mem_filterMap.1 h
  refine ⟨x, hx, ?_⟩
  cases x with
  | field head selections => cases hxf
  | inlineFragment position condition directives selections =>
    obtain rfl := Option.some.inj hxf
    rfl
  | spread position name directives =>
    obtain rfl := Option.some.inj hxf
    rfl

/-! ## From steps to selections -/

/-- **The steps at one selection fail with errors of one kind**, if the selections on its type
have a property. -/
structure StepsFailWith (schema : Schema) (registry : Registry) (R : String → Selected → Prop)
    (p : BuildError → Prop) : Prop where
  directives : ∀ {type : String} {s : Selected} {x : Selection}, R type s → x ∈ s.selections →
    Except.FailsWith p (inclusion s.file x.directives)
  field : ∀ {type : String} {s : Selected} {f : SelectedField}, R type s → f ∈ s.fields →
    schema.field? type f.head.name = none →
    p (.undefinedField f.head.name type (s.location f.head.position))
  arguments : ∀ {type : String} {s : Selected} {f : SelectedField} {d : FieldDefinition},
    R type s → f ∈ s.fields → schema.field? type f.head.name = some d →
    Except.FailsWith p (coerceArguments schema d (s.location f.head.position) f.head.arguments)
  entering : ∀ {type : String} {s : Selected} {f : SelectedFragment}, R type s → f ∈ s.fragments →
    ruledOut f.directives = false → Except.FailsWith p (enter registry s type f)
  typeCondition : ∀ {type : String} {s : Selected} {f : SelectedFragment} {e : EnteredFragment},
    R type s → f ∈ s.fragments → enter registry s type f = .ok e →
    schema.type? e.typeCondition = none → p (.undefinedType e.typeCondition e.location)

namespace StepsFailWith

variable {pass : Pass} {R : String → Selected → Prop} {p : BuildError → Prop}

theorem failsWith_includedFields {file : Option String} {group : List SelectedField}
    (h : ∀ f ∈ group, Except.FailsWith p (inclusion file f.head.directives)) :
    Except.FailsWith p (includedFields file group) := by
  induction group with
  | nil => exact .ok _
  | cons f fs ih =>
    obtain ⟨hf, hfs⟩ := List.forall_mem_cons.1 h
    rw [includedFields]
    split
    next e he => exact .error (hf e he)
    · exact ih hfs
    · exact (ih hfs).map _

/-- A field fails at its own selections, or below them. -/
theorem failsWith_lowerField (h : StepsFailWith pass.schema registry R p) (hs : R type s)
    {below : PlaceLowering} {g : Group String SelectedField} (hg : g ∈ s.groups)
    (hb : ∀ place first rest d, s.included g.key = first :: rest →
      pass.schema.field? type first.head.name = some d → place.type = d.type.innermostName →
      Except.FailsWith p (below place (s.below ((first :: rest).flatMap SelectedField.selections))))
    (keys : OrderedSet SelectionKey) :
    Except.FailsWith p (lowerField pass below type keys s g.key g.members) := by
  have hmember : ∀ f ∈ g.members, f ∈ s.fields := fun f hf => ((mem_members_iff hg).1 hf).1
  have hgroup : Except.FailsWith p (includedFields s.file g.members) := by
    apply failsWith_includedFields
    intro f hf
    exact h.directives hs (Selected.mem_fields.1 (hmember f hf))
  rw [lowerField]
  apply hgroup.bind
  intro r hi
  obtain ⟨conditions, included⟩ := r
  cases included with
  | nil => exact .ok none
  | cons first rest =>
    have hfirst : first ∈ s.fields := hmember first (included_subset hi first List.mem_cons_self)
    dsimp only
    cases hd : pass.schema.field? type first.head.name with
    | none => exact .error (h.field hs hfirst hd)
    | some definition =>
      apply (h.arguments hs hfirst hd).bind
      intro arguments _
      by_cases hn : (first :: rest).flatMap SelectedField.selections = []
      · rw [if_pos (List.isEmpty_iff.2 hn)]
        exact .ok _
      · rw [if_neg (mt List.isEmpty_iff.1 hn)]
        have hbelow := hb (Place.below keys g.key definition) first rest definition
          (eq_included hg hi).symm hd rfl
        exact hbelow.bind fun _ _ => .ok _

/-- A fragment fails at its own selection, or inside of what it stands for. -/
theorem failsWith_lowerFragment (h : StepsFailWith pass.schema registry R p) {around : Enclosing}
    (hs : R around.type s) {fields : FieldsLowering} {fragments : FragmentsLowering}
    {f : SelectedFragment} (hf : f ∈ s.fragments)
    (hin : ∀ e, ruledOut f.directives = false →
      enter registry s around.type f = .ok e →
      (∀ keys, Except.FailsWith p (fields e.typeCondition keys e.selected)) ∧
      ∀ around : Enclosing, around.type = e.typeCondition →
        Except.FailsWith p (fragments around e.selected)) :
    Except.FailsWith p (lowerFragment pass registry fields fragments around s f) := by
  obtain ⟨x, hx, hdirectives⟩ := Selected.exists_directives hf
  have hinclusion : Except.FailsWith p (inclusion s.file f.directives) := by
    rw [← hdirectives]
    exact h.directives hs hx
  rw [lowerFragment]
  apply hinclusion.bind
  intro i hi
  cases i with
  | never => exact .ok []
  | under conditions =>
    have hr := ruledOut_of_under hi
    apply (h.entering hs hf hr).bind
    intro e he
    obtain ⟨hfields, hfragments⟩ := hin e hr he
    rw [lowerEntered]
    split
    next hn => exact .error (h.typeCondition hs hf he (Option.isNone_iff_eq_none.1 hn))
    · exact .bind (hfields _) fun own _ => .bind (hfragments _ rfl) fun nested _ => .ok _

/-- Selections on a type with a property that is handed on fail with what their steps fail
with, under any bound on the depth. -/
theorem failsWith_lowerings (h : StepsFailWith pass.schema registry R p)
    (hR : HandedOn pass.schema registry R) (n : Nat) : ∀ type s, R type s →
    (∀ keys, Except.FailsWith p (lowerFields pass registry n type keys s)) ∧
    ∀ around : Enclosing, around.type = type →
      Except.FailsWith p (lowerFragments pass registry n around s) := by
  induction n with
  | zero => exact fun _ _ _ => ⟨fun _ => .ok _, fun _ _ => .ok _⟩
  | succ n ih =>
    intro type s hs
    constructor
    · intro keys
      rw [lowerFields, lowerFieldsWith]
      refine .bind (.mapM fun g hg => ?_) fun _ _ => .ok _
      apply h.failsWith_lowerField hs hg
      intro place first rest d hi hd hplace
      obtain ⟨hfields, hfragments⟩ := ih _ _ (hR.below hs hi hd)
      rw [← hplace] at hfields hfragments
      exact .bind (hfields _) fun own _ => .bind (hfragments _ rfl) fun is _ => .ok _
    · rintro around rfl
      rw [lowerFragments, lowerFragmentsWith]
      refine .bind (.mapM fun f hf => ?_) fun _ _ => .ok _
      apply h.failsWith_lowerFragment hs hf
      intro e hr he
      exact ih _ _ (hR.inside hs hf hr he)

/-- **Lowering fails with what its steps fail with.** -/
theorem failsWith_lowerPlace (h : StepsFailWith pass.schema registry R p)
    (hR : HandedOn pass.schema registry R) {place : Place} (hs : R place.type s) :
    Except.FailsWith p (lowerPlace pass registry place s) := by
  obtain ⟨hfields, hfragments⟩ := h.failsWith_lowerings hR (s.depth registry) place.type s hs
  exact .bind (hfields _) fun own _ => .bind (hfragments _ rfl) fun is _ => .ok _

end StepsFailWith

end SelectionModel
