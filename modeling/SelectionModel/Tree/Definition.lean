import SelectionModel.Language.OperationKind
import SelectionModel.Tree.Field

/-!
# Models of definitions

The models of operations and of named fragments, and of all definitions of some
documents.
-/

namespace SelectionModel

/-- A variable of an operation. -/
structure Variable where
  default : Option Value
  name : String
  type : TypeRef
  deriving Inhabited

/-- The model of an operation. A field `data` holds its selection. -/
structure Operation where
  data : Field
  location : SourceLocation
  name : String
  kind : OperationKind
  /-- The name as it is declared. -/
  declaredName : String
  rootType : String
  sourceText : String
  packageHint : String
  variableDefinitions : List Variable

/-- The model of a fragment: its selection without implementations, and the
selection of its default implementation. -/
structure NamedFragment where
  location : SourceLocation
  defaultImplementationName : String
  defaultSelectionSet : SelectionSet
  description : Option String
  name : String
  selectionSet : SelectionSet
  sourceText : String

/-- The models of the definitions of some documents, in order. -/
structure DocumentModel where
  fragments : List NamedFragment := []
  operations : List Operation := []

/-- Choices about names. -/
structure BuildOptions where
  /-- The package of all models; by default it is taken from the path of each document. -/
  packageName : Option String := none
  /-- Whether the name of an operation ends in its kind. -/
  semanticNames : Bool := true
  deriving DecidableEq, Repr

end SelectionModel
