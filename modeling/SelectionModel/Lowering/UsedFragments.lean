import SelectionModel.Document.Registry
import SelectionModel.Lowering.Error

/-!
# Used fragments

The fragments that some selections spread, also through other fragments: each
once, in depth-first order of first use. What directives rule out is used as well.
-/

namespace SelectionModel

/-- Visits a spread that stands at a location, given the fragments used so far. -/
abbrev SpreadVisit :=
  SourceLocation → String → List RegisteredFragment → Except BuildError (List RegisteredFragment)

mutual

/-- Visits the spreads in a selection of a file. -/
def visitSelection (visit : SpreadVisit) (file : Option String) :
    Selection → List RegisteredFragment → Except BuildError (List RegisteredFragment)
  | .field _ selections, used => visitSelections visit file selections used
  | .inlineFragment _ _ _ selections, used => visitSelections visit file selections used
  | .spread position name _, used => visit (.executable ⟨file, position⟩) name used

/-- Visits the spreads in selections of a file, in order. -/
def visitSelections (visit : SpreadVisit) (file : Option String) :
    List Selection → List RegisteredFragment → Except BuildError (List RegisteredFragment)
  | [], used => .ok used
  | s :: ss, used =>
    match visitSelection visit file s used with
    | .ok used => visitSelections visit file ss used
    | .error e => .error e

end

/-- Visits a spread: a fragment that was not used before is, and so are those
that it spreads. Each step inwards uses a new fragment, which bounds the depth. -/
def visitSpread (registry : Registry) : Nat → SpreadVisit
  | 0, _, _, used => .ok used
  | bound + 1, location, name, used =>
    if used.any fun f => f.name == name then .ok used
    else
      match registry.get? name with
      | none => .error (.undefinedFragment name location)
      | some f => visitSelections (visitSpread registry bound) f.file f.selections (used ++ [f])

/-- **The fragments that selections of a file use.** -/
def usedFragments (registry : Registry) (file : Option String) (selections : List Selection) :
    Except BuildError (List RegisteredFragment) :=
  visitSelections (visitSpread registry (registry.fragments.length + 1)) file selections []

end SelectionModel
