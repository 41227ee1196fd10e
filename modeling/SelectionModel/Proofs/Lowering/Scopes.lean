import SelectionModel.Proofs.Groups
import SelectionModel.Proofs.Lowering.Derivation

/-!
# Selections on types

Selections are lowered on a type, and with them others: what is selected below the fields of
one response name, all of it on the type of the first of these, and what is in a fragment, on
the type condition of that.

* `eq_included`: the fields of one response name that are lowered together.
* `HandedOn`: a property of selections on a type that those have which are lowered with them.
* `LoweredTogether`: **the selections that are lowered**, with their types.
* `LoweredOn`: a selection by the file it is written in and the type it is lowered on.
* `standsOn_of_namesAgree`: this is the type that it stands on.
-/

namespace SelectionModel

/-- The selected fields of one response name, unless a literal rules them out. -/
def Selected.included (s : Selected) (name : String) : List SelectedField :=
  s.fields.filter fun f => decide (f.head.responseName = name) && !ruledOut f.head.directives

variable {schema : Schema} {registry : Registry} {type u name : String} {start s t : Selected}

theorem mem_included {f : SelectedField} (h : f ∈ s.included name) :
    f ∈ s.fields ∧ ruledOut f.head.directives = false := by
  obtain ⟨hf, hn⟩ := List.mem_filter.1 h
  rw [Bool.and_eq_true, Bool.not_eq_true'] at hn
  exact ⟨hf, hn.2⟩

/-- **What is included of a group** is what counts of its response name. -/
theorem eq_included {g : Group String SelectedField} (hg : g ∈ s.groups)
    {conditions : List Condition} {included : List SelectedField}
    (h : includedFields s.file g.members = .ok (conditions, included)) :
    included = s.included g.key := by
  rw [includedFields_eq_ok h, members_eq_filter hg, List.filter_filter]
  apply List.filter_congr
  intro f _
  exact Bool.and_comm _ _

/-! ## What is lowered with selections -/

/-- **A property that selections on a type hand on** to those that are lowered with them. -/
structure HandedOn (schema : Schema) (registry : Registry) (R : String → Selected → Prop) :
    Prop where
  below : ∀ {type : String} {s : Selected} {name : String} {first : SelectedField}
    {rest : List SelectedField} {d : FieldDefinition}, R type s →
    s.included name = first :: rest → schema.field? type first.head.name = some d →
    R d.type.innermostName (s.below ((first :: rest).flatMap SelectedField.selections))
  inside : ∀ {type : String} {s : Selected} {f : SelectedFragment} {e : EnteredFragment},
    R type s → f ∈ s.fragments → ruledOut f.directives = false →
    enter registry s type f = .ok e → R e.typeCondition e.selected

/-- **The selections that are lowered with some selections on a type**, and the types on
which they are. -/
inductive LoweredTogether (schema : Schema) (registry : Registry) (type : String)
    (start : Selected) : String → Selected → Prop where
  | start : LoweredTogether schema registry type start type start
  | field {t : String} {s : Selected} {name : String} {first : SelectedField}
      {rest : List SelectedField} {d : FieldDefinition} :
    LoweredTogether schema registry type start t s → s.included name = first :: rest →
    schema.field? t first.head.name = some d →
    LoweredTogether schema registry type start d.type.innermostName
      (s.below ((first :: rest).flatMap SelectedField.selections))
  | fragment {t : String} {s : Selected} {f : SelectedFragment} {e : EnteredFragment} :
    LoweredTogether schema registry type start t s → f ∈ s.fragments →
    ruledOut f.directives = false → enter registry s t f = .ok e →
    LoweredTogether schema registry type start e.typeCondition e.selected

theorem handedOn_loweredTogether :
    HandedOn schema registry (LoweredTogether schema registry type start) where
  below := .field
  inside := .fragment

/-- What is handed on holds of all selections that are lowered. -/
theorem HandedOn.of_loweredTogether {R : String → Selected → Prop}
    (h : HandedOn schema registry R) (hs : R type start)
    (ht : LoweredTogether schema registry type start u t) : R u t := by
  induction ht with
  | start => exact hs
  | field _ hi hd ih => exact h.below ih hi hd
  | fragment _ hf hr he ih => exact h.inside ih hf hr he

/-! ## Where selections are written -/

/-- A selection stands among selections, at any depth. -/
inductive Selection.Within (x : Selection) : List Selection → Prop where
  | here {ss : List Selection} : x ∈ ss → x.Within ss
  | field {ss selections : List Selection} {head : FieldHead} :
    .field head selections ∈ ss → x.Within selections → x.Within ss
  | inlineFragment {ss selections : List Selection} {position : Position}
      {condition : Option String} {directives : List Directive} :
    .inlineFragment position condition directives selections ∈ ss → x.Within selections →
    x.Within ss

/-- What stands below some fields stands among the selections that the fields are of. -/
theorem Selection.Within.of_below {x : Selection} {fs : List SelectedField}
    (hf : ∀ f ∈ fs, f ∈ s.fields) (h : x.Within (fs.flatMap SelectedField.selections)) :
    x.Within s.selections := by
  have hfield : ∃ f ∈ fs, x.Within f.selections := by
    cases h with
    | here hx =>
      obtain ⟨f, hf, hx⟩ := List.mem_flatMap.1 hx
      exact ⟨f, hf, .here hx⟩
    | field hx h =>
      obtain ⟨f, hf, hx⟩ := List.mem_flatMap.1 hx
      exact ⟨f, hf, .field hx h⟩
    | inlineFragment hx h =>
      obtain ⟨f, hf, hx⟩ := List.mem_flatMap.1 hx
      exact ⟨f, hf, .inlineFragment hx h⟩
  obtain ⟨f, hm, hx⟩ := hfield
  exact .field (Selected.mem_fields.1 (hf f hm)) hx

/-- **A selection is written in a file**, at any depth: of the definition that is built, or of
a registered fragment. -/
inductive WrittenIn (registry : Registry) (start : Selected) :
    Option String → Selection → Prop where
  | here {x : Selection} : x.Within start.selections → WrittenIn registry start start.file x
  | registered {x : Selection} {name : String} {d : RegisteredFragment} :
    registry.get? name = some d → x.Within d.selections → WrittenIn registry start d.file x

/-- All that is lowered is written in its file. -/
theorem handedOn_writtenIn (schema : Schema) (registry : Registry) (start : Selected) :
    HandedOn schema registry fun _ s =>
      ∀ x : Selection, x.Within s.selections → WrittenIn registry start s.file x where
  below hs hi _ x hx := by
    apply hs x
    apply Selection.Within.of_below _ hx
    intro f hf
    rw [← hi] at hf
    exact (mem_included hf).1
  inside hs hf _ he x hx := by
    rcases enter_cases hf he with ⟨condition, selections, hm, rfl⟩ | ⟨name, d, -, hd, -, rfl⟩
    · exact hs x (.inlineFragment hm hx)
    · exact .registered hd hx

/-- **A selection of a file is lowered on a type.** -/
structure LoweredOn (schema : Schema) (registry : Registry) (type : String) (start : Selected)
    (t : String) (file : Option String) (x : Selection) : Prop where
  written : WrittenIn registry start file x
  together : ∃ s, LoweredTogether schema registry type start t s ∧ s.file = file ∧
    x ∈ s.selections

theorem LoweredTogether.loweredOn (ht : LoweredTogether schema registry type start u t)
    {x : Selection} (hx : x ∈ t.selections) :
    LoweredOn schema registry type start u t.file x where
  written := by
    have hwritten := (handedOn_writtenIn schema registry start).of_loweredTogether
      (fun x hx => .here hx) ht
    exact hwritten x (.here hx)
  together := ⟨t, ht, rfl, hx⟩

/-! ## The types that selections stand on -/

/-- **A selection of a file stands on a type**: below a field on the type of that field, in a
fragment on its type condition, if it has one. -/
inductive StandsOn (schema : Schema) (registry : Registry) (type : String) (start : Selected) :
    String → Option String → Selection → Prop where
  | start {x : Selection} : x ∈ start.selections →
    StandsOn schema registry type start type start.file x
  | field {t : String} {file : Option String} {head : FieldHead} {selections : List Selection}
      {d : FieldDefinition} {x : Selection} :
    StandsOn schema registry type start t file (.field head selections) →
    schema.field? t head.name = some d → x ∈ selections →
    StandsOn schema registry type start d.type.innermostName file x
  | inPlace {t : String} {file : Option String} {position : Position} {condition : Option String}
      {directives : List Directive} {selections : List Selection} {x : Selection} :
    StandsOn schema registry type start t file
      (.inlineFragment position condition directives selections) →
    x ∈ selections → StandsOn schema registry type start (condition.getD t) file x
  | registered {t : String} {file : Option String} {position : Position} {name : String}
      {directives : List Directive} {d : RegisteredFragment} {x : Selection} :
    StandsOn schema registry type start t file (.spread position name directives) →
    registry.get? name = some d → x ∈ d.selections →
    StandsOn schema registry type start d.typeCondition d.file x

/-- **Fields of one response name that are lowered together have one name.** -/
def NamesAgree (schema : Schema) (registry : Registry) (type : String) (start : Selected) : Prop :=
  ∀ t s, LoweredTogether schema registry type start t s →
    ∀ name, ∀ f ∈ s.included name, ∀ g ∈ s.included name, f.head.name = g.head.name

theorem LoweredTogether.standsOn (h : NamesAgree schema registry type start)
    (ht : LoweredTogether schema registry type start u t) :
    ∀ x ∈ t.selections, StandsOn schema registry type start u t.file x := by
  induction ht with
  | start => exact fun x hx => .start hx
  | @field t s name first rest d hs hi hd ih =>
    intro x hx
    obtain ⟨f, hf, hx⟩ := List.mem_flatMap.1 hx
    rw [← hi] at hf
    have hfirst : first ∈ s.included name := by
      rw [hi]
      exact List.mem_cons_self
    have hname : f.head.name = first.head.name := h t s hs name f hf first hfirst
    rw [← hname] at hd
    exact .field (ih _ (Selected.mem_fields.1 (mem_included hf).1)) hd hx
  | fragment _ hf _ he ih =>
    intro x hx
    rcases enter_cases hf he with ⟨condition, selections, hm, rfl⟩ | ⟨name, d, hm, hd, -, rfl⟩
    · exact .inPlace (ih _ hm) hx
    · exact .registered (ih _ hm) hd hx

/-- **Selections are lowered on the types that they stand on**, if names agree. -/
theorem standsOn_of_namesAgree (h : NamesAgree schema registry type start)
    {file : Option String} {x : Selection}
    (hx : LoweredOn schema registry type start u file x) :
    StandsOn schema registry type start u file x := by
  obtain ⟨-, s, hs, rfl, hx⟩ := hx
  exact hs.standsOn h x hx

end SelectionModel
