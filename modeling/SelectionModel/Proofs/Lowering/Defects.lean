import SelectionModel.Proofs.Lowering.Failures
import SelectionModel.Proofs.UsedFragments.Search

/-!
# Defects behind errors

An error about one selection or definition names what is wrong with it, and its location is
where this stands: in the file that it is written in.

* `Defect`: what is wrong where an error says that it is.
* `defect_of_lowerPlace`: **lowering fails because of a defect**.
* `defect_of_usedFragments`: so does the search for used fragments.
-/

namespace SelectionModel

/-- The error is about one selection or about one definition of a fragment. -/
def BuildError.AboutNode : BuildError → Prop
  | .undefinedField _ _ _ => True
  | .undefinedFragment _ _ => True
  | .undefinedType _ _ => True
  | .invalidDirectiveArgument _ _ => True
  | .argumentCoercion _ _ _ => True
  | _ => False

/-- **What is wrong where an error says that it is**, for errors about one selection or about
the definition of a registered fragment. -/
inductive Defect (schema : Schema) (registry : Registry) (type : String) (start : Selected) :
    BuildError → Prop where
  /-- A field that its type does not have. -/
  | undefinedField {t : String} {file : Option String} {head : FieldHead}
      {selections : List Selection} :
    LoweredOn schema registry type start t file (.field head selections) →
    schema.field? t head.name = none →
    Defect schema registry type start
      (.undefinedField head.name t (.executable ⟨file, head.position⟩))
  /-- A spread of a fragment that is not registered. -/
  | undefinedFragment {file : Option String} {position : Position} {name : String}
      {directives : List Directive} :
    WrittenIn registry start file (.spread position name directives) →
    registry.get? name = none →
    Defect schema registry type start (.undefinedFragment name (.executable ⟨file, position⟩))
  /-- A fragment in place whose type condition, or else the type around it, is not defined. -/
  | undefinedType {t : String} {file : Option String} {position : Position}
      {condition : Option String} {directives : List Directive} {selections : List Selection} :
    LoweredOn schema registry type start t file
      (.inlineFragment position condition directives selections) →
    schema.type? (condition.getD t) = none →
    Defect schema registry type start
      (.undefinedType (condition.getD t) (.executable ⟨file, position⟩))
  /-- A registered fragment whose type condition is not defined. -/
  | undefinedCondition {name : String} {d : RegisteredFragment} :
    registry.get? name = some d → schema.type? d.typeCondition = none →
    Defect schema registry type start (.undefinedType d.typeCondition d.location)
  /-- A directive whose only argument is no condition. -/
  | directive {file : Option String} {x : Selection} {d : Directive} :
    WrittenIn registry start file x → d ∈ x.directives → d.Misused →
    Defect schema registry type start
      (.invalidDirectiveArgument d.name (.executable ⟨file, d.position⟩))
  /-- An argument that its field does not have, or whose value does not fit. -/
  | argument {t : String} {file : Option String} {head : FieldHead} {selections : List Selection}
      {d : FieldDefinition} {name : String} {value : Value} {reason : CoercionError} :
    LoweredOn schema registry type start t file (.field head selections) →
    schema.field? t head.name = some d → (name, value) ∈ head.arguments →
    d.Rejects schema name value reason →
    Defect schema registry type start
      (.argumentCoercion name reason (.executable ⟨file, head.position⟩))

/-- Errors about a node are behind a defect. -/
def BuildError.Justified (schema : Schema) (registry : Registry) (type : String)
    (start : Selected) (e : BuildError) : Prop :=
  e.AboutNode → Defect schema registry type start e

variable {pass : Pass} {schema : Schema} {registry : Registry} {type : String} {start : Selected}

/-! ## Lowering -/

/-- **Each step fails because of a defect.** -/
theorem justified_steps (schema : Schema) (registry : Registry) (type : String)
    (start : Selected) :
    StepsFailWith schema registry (LoweredTogether schema registry type start)
      (BuildError.Justified schema registry type start) where
  directives hs hx e he := by
    obtain ⟨d, hd, hmisused, rfl⟩ := inclusion_eq_error he
    exact fun _ => .directive (hs.loweredOn hx).written hd hmisused
  field hs hf hn := fun _ => .undefinedField (hs.loweredOn (Selected.mem_fields.1 hf)) hn
  arguments hs hf hd e he := by
    obtain ⟨a, ha, reason, hreason, rfl⟩ := coerceArguments_eq_error he
    exact fun _ => .argument (hs.loweredOn (Selected.mem_fields.1 hf)) hd ha hreason
  entering hs hf _ e he := by
    obtain ⟨name, hx, ⟨hn, rfl⟩ | ⟨-, -, rfl⟩⟩ := enter_eq_error hf he
    · exact fun _ => .undefinedFragment (hs.loweredOn hx).written hn
    · exact fun h => h.elim
  typeCondition hs hf he hn := by
    intro _
    rcases enter_cases hf he with ⟨condition, selections, hx, rfl⟩ | ⟨name, d, -, hd, -, rfl⟩
    · exact .undefinedType (hs.loweredOn hx) hn
    · exact .undefinedCondition hd hn

/-- **Lowering fails because of a defect.** -/
theorem defect_of_lowerPlace (pass : Pass) (registry : Registry) (place : Place) (s : Selected) :
    Except.FailsWith (BuildError.Justified pass.schema registry place.type s)
      (lowerPlace pass registry place s) :=
  (justified_steps pass.schema registry place.type s).failsWith_lowerPlace handedOn_loweredTogether
    .start

/-! ## The search for used fragments -/

section Spreads

variable {file : Option String} {x : PlacedSpread}

/-- A spread that stands in selections of a file. -/
def PlacedSpread.WithinOf (x : PlacedSpread) (file : Option String) (ss : List Selection) : Prop :=
  ∃ position directives, (Selection.spread position x.name directives).Within ss ∧
    x.location = .executable ⟨file, position⟩

mutual

theorem withinOf_of_mem_spreads : ∀ (y : Selection), x ∈ y.spreads file →
    ∀ ss : List Selection, y ∈ ss → x.WithinOf file ss
  | .field head selections, hx, ss, hy => by
    rw [Selection.spreads] at hx
    obtain ⟨position, directives, hw, hl⟩ := withinOf_of_mem_spreadsIn selections hx _ fun _ h => h
    exact ⟨position, directives, .field hy hw, hl⟩
  | .inlineFragment _ _ _ selections, hx, ss, hy => by
    rw [Selection.spreads] at hx
    obtain ⟨position, directives, hw, hl⟩ := withinOf_of_mem_spreadsIn selections hx _ fun _ h => h
    exact ⟨position, directives, .inlineFragment hy hw, hl⟩
  | .spread position name directives, hx, ss, hy => by
    rw [Selection.spreads, List.mem_singleton] at hx
    obtain rfl := hx
    exact ⟨position, directives, .here hy, rfl⟩

/-- **The spreads in selections stand there**, at any depth. -/
theorem withinOf_of_mem_spreadsIn : ∀ (ys : List Selection), x ∈ spreadsIn file ys →
    ∀ ss : List Selection, (∀ y ∈ ys, y ∈ ss) → x.WithinOf file ss
  | [], hx, _, _ => by
    rw [spreadsIn] at hx
    cases hx
  | y :: ys, hx, ss, hs => by
    obtain ⟨hy, hys⟩ := List.forall_mem_cons.1 hs
    rw [spreadsIn, List.mem_append] at hx
    rcases hx with hx | hx
    · exact withinOf_of_mem_spreads y hx ss hy
    · exact withinOf_of_mem_spreadsIn ys hx ss hys

end

/-- A spread is written in the file that its location says. -/
def PlacedSpread.WrittenFrom (registry : Registry) (start : Selected) (x : PlacedSpread) : Prop :=
  ∃ file position directives,
    WrittenIn registry start file (.spread position x.name directives) ∧
      x.location = .executable ⟨file, position⟩

/-- The spreads in written selections are written. -/
theorem writtenFrom_of_mem {ss : List Selection}
    (hs : ∀ y : Selection, y.Within ss → WrittenIn registry start file y)
    (hx : x ∈ spreadsIn file ss) : x.WrittenFrom registry start := by
  obtain ⟨position, directives, hw, hl⟩ := withinOf_of_mem_spreadsIn ss hx ss fun _ h => h
  exact ⟨file, position, directives, hs _ hw, hl⟩

/-- Spreads that are reached from written ones are written. -/
theorem Reaches.writtenFrom {xs : List PlacedSpread} (h : Reaches registry xs x)
    (hs : ∀ y ∈ xs, y.WrittenFrom registry start) : x.WrittenFrom registry start := by
  induction h with
  | here hx => exact hs _ hx
  | inside _ hf _ ih =>
    apply ih
    intro z hz
    exact writtenFrom_of_mem (fun _ => .registered hf) hz

end Spreads

/-- **The search for used fragments fails because of a defect.** -/
theorem defect_of_usedFragments (schema : Schema) (registry : Registry) (type : String)
    (start : Selected) :
    Except.FailsWith (BuildError.Justified schema registry type start)
      (usedFragments registry start.file start.selections) := by
  intro e he _
  obtain ⟨walk, hw⟩ := DepthFirst.exists registry [] (spreadsIn start.file start.selections)
  rw [usedFragments_eq_resolve hw] at he
  obtain ⟨x, hx, rfl⟩ := Registry.resolve_eq_error.1 he
  have hlacks := Registry.lacks_iff.1 (List.find?_some hx)
  have hwritten : x.WrittenFrom registry start := by
    apply (hw.mem_iff.1 (List.mem_of_find?_eq_some hx)).writtenFrom
    intro y hy
    exact writtenFrom_of_mem (fun _ => .here) hy
  obtain ⟨file, position, directives, hx, hl⟩ := hwritten
  rw [hl]
  exact .undefinedFragment hx hlacks

end SelectionModel
