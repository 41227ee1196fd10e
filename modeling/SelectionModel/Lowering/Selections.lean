import SelectionModel.Lowering.Coercion
import SelectionModel.Lowering.Inclusion
import SelectionModel.Lowering.Merging
import SelectionModel.Lowering.Selected

/-!
# Lowering selections

The selections at one place become the fields and fragments of a model. Fields
are merged by response name before they are lowered; each fragment becomes an
interface, which has the fields around it as well as its own.

Selections are lowered by the same rules one level down, so the functions for
one level take those for the next as an argument; `lowerFields` and
`lowerFragments` tie the knot along the depth of the selections.
-/

namespace SelectionModel

/-- A place whose selections are lowered. -/
structure Place where
  /-- The end of the names of its implementations. -/
  suffix : String
  type : String
  keys : OrderedSet SelectionKey

/-- The selection that a fragment stands in. -/
structure Enclosing where
  fields : List Field
  possibleTypes : OrderedSet String
  keys : OrderedSet SelectionKey
  type : String

/-- The lowering of the selections at a place. -/
abbrev PlaceLowering := Place → Selected → Except BuildError (List Field × List Fragment)

/-- The lowering of the fields among the selections on a type. -/
abbrev FieldsLowering :=
  String → OrderedSet SelectionKey → Selected → Except BuildError (List Field)

/-- The lowering of the fragments among some selections. -/
abbrev FragmentsLowering := Enclosing → Selected → Except BuildError (List Interface)

/-! ## Fields -/

/-- The selections of a field that can be part of a response, and the conditions
of all of them. -/
def includedFields (file : Option String) :
    List SelectedField → Except BuildError (List Condition × List SelectedField)
  | [] => .ok ([], [])
  | f :: fs =>
    match inclusion file f.head.directives with
    | .error e => .error e
    | .ok .never => includedFields file fs
    | .ok (.under cs) =>
      (includedFields file fs).map fun (conditions, included) =>
        (extendConditions cs conditions, f :: included)

/-- Lowers selections of one response name to a field. The first one that can be
part of a response speaks for all about arguments and type; all contribute
their selections. -/
def lowerField (pass : Pass) (lowerBelow : PlaceLowering) (type : String)
    (keys : OrderedSet SelectionKey) (s : Selected) (responseName : String)
    (group : List SelectedField) : Except BuildError (Option Field) := do
  let (conditions, included) ← includedFields s.file group
  match included with
  | [] => return none
  | first :: _ =>
    let location := s.location first.head.position
    match pass.schema.field? type first.head.name with
    | none => throw (.undefinedField first.head.name type location)
    | some definition =>
      let arguments ← coerceArguments pass.schema definition location first.head.arguments
      let modelName := capitalize responseName
      let fieldKeys := keys.map (·.child modelName)
      let selections := included.flatMap SelectedField.selections
      let (fields, fragments) ←
        if selections.isEmpty then pure ([], [])
        else
          lowerBelow ⟨modelName, definition.type.innermostName, fieldKeys⟩ (s.below selections)
      return some {
        aliasName := first.head.aliasName
        arguments := arguments
        conditions := conditions
        location := location
        deprecation := definition.deprecation?
        description := definition.description
        fields := fields
        fragments := fragments
        name := first.head.name
        keys := fieldKeys
        type := definition.type }

/-- Lowers the fields among some selections, one for each response name. -/
def lowerFieldsWith (pass : Pass) (lowerBelow : PlaceLowering) : FieldsLowering :=
  fun type keys s => do
    let groups := groupBy (fun f : SelectedField => f.head.responseName) s.fields
    let fields ← groups.mapM fun g => lowerField pass lowerBelow type keys s g.key g.members
    return fields.filterMap id

/-! ## Fragments -/

/-- The keys of a fragment: those around it one step deeper, and its own root if
it has a name. -/
def fragmentKeys (keys : OrderedSet SelectionKey) (f : EnteredFragment) : OrderedSet SelectionKey :=
  let below := OrderedSet.ofList ((rebasedKeys keys f.typeCondition).map Prod.snd)
  match f.name with
  | some name => below.insert (.ofRoot .fragment (capitalize name))
  | none => below

/-- Lowers a fragment that can be part of a response, under conditions, and the
fragments in it, the outer ones first. -/
def lowerEntered (pass : Pass) (lowerFields : FieldsLowering) (lowerFragments : FragmentsLowering)
    (around : Enclosing) (conditions : List Condition) (f : EnteredFragment) :
    Except BuildError (List Interface) := do
  if (pass.schema.type? f.typeCondition).isNone then
    throw (.undefinedType f.typeCondition f.location)
  let keys := fragmentKeys around.keys f
  let possibleTypes := (pass.schema.possibleTypes f.typeCondition).inter around.possibleTypes
  let ownFields ← lowerFields f.typeCondition keys f.selected
  let inherited := inheritFields around.fields (rebasedKeys around.keys f.typeCondition)
  let fields := mergeFields pass (inherited ++ ownFields)
  let nested ← lowerFragments ⟨fields, possibleTypes, keys, f.typeCondition⟩ f.selected
  return {
    conditions := conditions
    description := pass.schema.description? f.typeCondition
    fields := fields
    possibleTypes := possibleTypes
    keys := keys
    typeCondition := f.typeCondition } :: nested

/-- Lowers a fragment and those in it, unless a literal condition rules it out. -/
def lowerFragment (pass : Pass) (registry : Registry) (lowerFields : FieldsLowering)
    (lowerFragments : FragmentsLowering) (around : Enclosing) (s : Selected)
    (f : SelectedFragment) : Except BuildError (List Interface) := do
  match ← inclusion s.file f.directives with
  | .never => return []
  | .under conditions =>
    let entered ← enter registry s around.type f
    lowerEntered pass lowerFields lowerFragments around conditions entered

/-- Lowers the fragments among some selections, one interface for each. -/
def lowerFragmentsWith (pass : Pass) (registry : Registry) (lowerFields : FieldsLowering)
    (lowerFragments : FragmentsLowering) : FragmentsLowering :=
  fun around s => do
    let interfaces ←
      s.fragments.mapM (lowerFragment pass registry lowerFields lowerFragments around s)
    return interfaces.flatten

/-! ## Places -/

/-- Lowers the selections at a place: its fields, then its fragments, which are
merged and followed by implementations. -/
def lowerPlaceWith (pass : Pass) (lowerFields : FieldsLowering)
    (lowerFragments : FragmentsLowering) : PlaceLowering :=
  fun place s => do
    let fields ← lowerFields place.type place.keys s
    let possibleTypes := pass.schema.possibleTypes place.type
    let interfaces ← lowerFragments ⟨fields, possibleTypes, place.keys, place.type⟩ s
    let merge := mergeFields pass
    return (fields,
      assemble pass merge (mergeInterfaces merge interfaces)
        ⟨fields, place.suffix, possibleTypes, place.keys⟩)

mutual

/-- Lowers the fields among selections that are nested at most `depth` deep. -/
def lowerFields (pass : Pass) (registry : Registry) : Nat → FieldsLowering
  | 0, _, _, _ => .ok []
  | depth + 1, type, keys, s =>
    let lowerBelow :=
      lowerPlaceWith pass (lowerFields pass registry depth) (lowerFragments pass registry depth)
    lowerFieldsWith pass lowerBelow type keys s

/-- Lowers the fragments among selections that are nested at most `depth` deep. -/
def lowerFragments (pass : Pass) (registry : Registry) : Nat → FragmentsLowering
  | 0, _, _ => .ok []
  | depth + 1, around, s =>
    lowerFragmentsWith pass registry (lowerFields pass registry depth)
      (lowerFragments pass registry depth) around s

end

/-- **Lowers the selections at a place.** -/
def lowerPlace (pass : Pass) (registry : Registry) : PlaceLowering :=
  fun place s =>
    lowerPlaceWith pass (lowerFields pass registry (s.depth registry))
      (lowerFragments pass registry (s.depth registry)) place s

end SelectionModel
