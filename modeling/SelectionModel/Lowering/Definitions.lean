import SelectionModel.Lowering.Selections
import SelectionModel.Lowering.UsedFragments

/-!
# Building models of definitions

An operation becomes a field `data` on its root type. A fragment is lowered
twice: without implementations, and with them for its default implementation,
whose models are reached under that name as well.
-/

namespace SelectionModel

/-- What definitions are built with. -/
structure Builder where
  schema : Schema
  registry : Registry
  options : BuildOptions

/-- The model of one definition. -/
inductive DefinitionModel where
  | operation (o : Operation)
  | fragment (f : NamedFragment)

/-- The keys that a default implementation adds to those rooted at its fragment. -/
def implementationKeys (fragmentRoot implementationRoot : String) (k : SelectionKey) :
    List SelectionKey :=
  if k.scope = .fragment ∧ k.root = fragmentRoot then [k.withRoot implementationRoot] else []

/-- A selection whose models are reached through the default implementation, too. -/
def patchSelectionSet (s : SelectionSet) (fragmentRoot implementationRoot : String) :
    SelectionSet :=
  s.withDerivedKeys (implementationKeys fragmentRoot implementationRoot)

/-- The lowered selections at a place, with the object types they apply to. -/
def lowerSelectionSet (pass : Pass) (registry : Registry) (place : Place) (s : Selected) :
    Except BuildError SelectionSet := do
  let (fields, fragments) ← lowerPlace pass registry place s
  return {
    fields := fields
    fragments := fragments
    possibleTypes := pass.schema.possibleTypes place.type
    keys := place.keys
    typeCondition := place.type }

namespace Builder

/-- **Builds the model of a fragment.** -/
def buildNamedFragment (b : Builder) (f : RegisteredFragment) :
    Except BuildError NamedFragment := do
  if (b.schema.type? f.typeCondition).isNone then
    throw (.undefinedType f.typeCondition f.location)
  let name := capitalize f.name
  let implementation := defaultImplementationName name
  let selected := Selected.ofDefinition f
  let place : Place := ⟨name, f.typeCondition, .singleton (.ofRoot .fragment name)⟩
  let selectionSet ← lowerSelectionSet ⟨b.schema, false⟩ b.registry place selected
  let defaultSet ← lowerSelectionSet ⟨b.schema, true⟩ b.registry place selected
  return {
    location := f.location
    defaultImplementationName := implementation
    defaultSelectionSet := patchSelectionSet defaultSet name implementation
    description := b.schema.description? f.typeCondition
    name := name
    selectionSet := selectionSet
    sourceText := f.sourceText }

/-- The text of an operation and those of all fragments that it uses, one line
break apart and without line breaks at the end. -/
def operationText (b : Builder) (d : Document) (o : OperationDefinition) (name : String) :
    Except BuildError String := do
  match d.definitionSource? o.position with
  | none => throw (.sourceTextUnavailable name (d.location o.position))
  | some text =>
    let used ← usedFragments b.registry d.file o.selections
    let all := String.intercalate "\n" (text :: used.map RegisteredFragment.sourceText)
    return String.ofList (Text.dropWhileEnd (· == '\n') all.toList)

/-- The field that holds the selection of an operation. -/
def dataField (location : SourceLocation) (rootType : String) (keys : OrderedSet SelectionKey)
    (fields : List Field) (fragments : List Fragment) : Field where
  aliasName := none
  arguments := []
  conditions := []
  location := location
  deprecation := none
  description := none
  fields := fields
  fragments := fragments
  name := "data"
  keys := keys
  type := .named false rootType

/-- **Builds the model of an operation.** -/
def buildOperation (b : Builder) (d : Document) (o : OperationDefinition) :
    Except BuildError Operation := do
  let location := d.location o.position
  match o.name, b.schema.root? o.kind with
  | none, _ => throw (.anonymousOperation location)
  | some _, none => throw (.missingRootType o.kind location)
  | some declared, some rootType =>
    let name := operationModelName b.options.semanticNames o.kind declared
    let model := capitalize "data"
    let keys := OrderedSet.singleton ((SelectionKey.ofRoot .query name).child model)
    let selected := Selected.ofFile d.file o.selections
    let (fields, fragments) ←
      lowerPlace ⟨b.schema, true⟩ b.registry ⟨model, rootType, keys⟩ selected
    let text ← b.operationText d o declared
    return {
      data := dataField location rootType keys fields fragments
      location := location
      name := name
      kind := o.kind
      declaredName := declared
      rootType := rootType
      sourceText := text
      packageHint := b.options.packageName.getD (packageHint d.file)
      variableDefinitions := o.variableDefinitions.map fun v => ⟨v.default, v.name, v.type⟩ }

/-- Builds the model of a definition. A fragment is built as it is registered. -/
def buildDefinition (b : Builder) (d : Document) : Definition → Except BuildError DefinitionModel
  | .operation o => (b.buildOperation d o).map .operation
  | .fragment f =>
    match b.registry.get? f.name with
    | none => .error (.undefinedFragment f.name (d.location f.position))
    | some registered => (b.buildNamedFragment registered).map .fragment

/-- Sorts models by kind, keeping their order. -/
def collect (models : List DefinitionModel) : DocumentModel where
  fragments := models.filterMap fun
    | .fragment f => some f
    | .operation _ => none
  operations := models.filterMap fun
    | .operation o => some o
    | .fragment _ => none

/-- Builds all definitions of a document; the first failure counts. -/
def buildDocument (b : Builder) (d : Document) : Except BuildError DocumentModel :=
  (d.definitions.mapM (b.buildDefinition d)).map collect

/-- **Builds all definitions of some documents**; the first failure counts. -/
def buildAll (b : Builder) (ds : List Document) : Except BuildError DocumentModel :=
  (ds.mapM fun d : Document => d.definitions.mapM (b.buildDefinition d)).map fun models =>
    collect models.flatten

end Builder

end SelectionModel
