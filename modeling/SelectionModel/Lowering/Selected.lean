import SelectionModel.Document.Registry
import SelectionModel.Lowering.Error

/-!
# Selected fields and fragments

The fields and the fragments among selections, and what a fragment among them
stands for: selections written in place, or those of a fragment definition,
which may stand in another file. A definition is looked up when it is entered,
so what is ruled out or comes after an error is never looked at.

A definition is not entered inside of itself. So it adds its own depth at most
once to that of selections whose spreads are followed, which bounds how deep
they are nested.
-/

namespace SelectionModel

/-- Selections of one file. -/
structure Selected where
  file : Option String
  /-- The fragment definitions that they were reached through, innermost first. -/
  enclosing : List String
  selections : List Selection

/-- A field among selections. -/
structure SelectedField where
  head : FieldHead
  selections : List Selection

/-- What a fragment among selections stands for. -/
inductive FragmentTarget where
  /-- Selections written in place, on a type or on that of their surroundings. -/
  | inPlace (typeCondition : Option String) (selections : List Selection)
  /-- A fragment definition. -/
  | definition (name : String)

/-- A fragment among selections. -/
structure SelectedFragment where
  position : Position
  directives : List Directive
  target : FragmentTarget

def Selection.field? : Selection → Option SelectedField
  | .field head selections => some ⟨head, selections⟩
  | _ => none

def Selection.fragment? : Selection → Option SelectedFragment
  | .field _ _ => none
  | .spread position name directives => some ⟨position, directives, .definition name⟩
  | .inlineFragment position typeCondition directives selections =>
    some ⟨position, directives, .inPlace typeCondition selections⟩

/-- A fragment definition adds its depth unless it is being entered already. -/
def Registry.depthOutside (registry : Registry) (enclosing : List String) : Nat :=
  (registry.fragments.filter fun f => f.name ∉ enclosing).foldr
    (fun f depth => selectionsDepth f.selections + depth) 0

namespace Selected

def fields (s : Selected) : List SelectedField := s.selections.filterMap Selection.field?

def fragments (s : Selected) : List SelectedFragment := s.selections.filterMap Selection.fragment?

def location (s : Selected) (p : Position) : SourceLocation := .executable ⟨s.file, p⟩

/-- Selections that stand below these, written in the same file. -/
def below (s : Selected) (selections : List Selection) : Selected :=
  { s with selections := selections }

/-- A bound on how deep the selections are nested when spreads are followed. -/
def depth (registry : Registry) (s : Selected) : Nat :=
  selectionsDepth s.selections + registry.depthOutside s.enclosing

end Selected

/-- The selections of an operation or of other text. -/
def Selected.ofFile (file : Option String) (selections : List Selection) : Selected :=
  ⟨file, [], selections⟩

/-- The selections of a fragment definition. -/
def Selected.ofDefinition (f : RegisteredFragment) : Selected := .ofFile f.file f.selections

/-- A fragment that was entered. -/
structure EnteredFragment where
  typeCondition : String
  /-- Where its type condition stands. -/
  location : SourceLocation
  name : Option String
  selected : Selected

/-- **Enters a fragment among selections on a type.** -/
def enter (registry : Registry) (s : Selected) (type : String) (f : SelectedFragment) :
    Except BuildError EnteredFragment :=
  let location := s.location f.position
  match f.target with
  | .inPlace condition selections => .ok ⟨condition.getD type, location, none, s.below selections⟩
  | .definition name =>
    match registry.get? name with
    | none => .error (.undefinedFragment name location)
    | some d =>
      if name ∈ s.enclosing then .error (.cyclicFragment name location)
      else
        .ok ⟨d.typeCondition, d.location, some d.name,
          ⟨d.file, d.name :: s.enclosing, d.selections⟩⟩

end SelectionModel
