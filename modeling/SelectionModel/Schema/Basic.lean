import SelectionModel.Language.OperationKind
import SelectionModel.Language.TypeSystem

/-!
# Schemas

A schema holds the definitions of its types in order and names the root types
of operations. It answers what a selection needs to know: the definition of a
type, of a field on a type, and the object types that a type stands for.
-/

namespace SelectionModel

/-- The types of a service and the root types of its operations. -/
structure Schema where
  types : List TypeDefinition
  query : String
  mutation : Option String
  subscription : Option String
  deriving Inhabited

/-- The definition of a type in a list of definitions. -/
def findType? (types : List TypeDefinition) (name : String) : Option TypeDefinition :=
  types.find? fun t => t.name == name

namespace TypeBody

/-- The interfaces that a type says it implements. -/
def implements : TypeBody → List String
  | .object is _ => is
  | .interface is _ => is
  | _ => []

def isObject : TypeBody → Bool
  | .object _ _ => true
  | _ => false

def isInterface : TypeBody → Bool
  | .interface _ _ => true
  | _ => false

/-- Whether selections on the type may ask for its name. -/
def isComposite : TypeBody → Bool
  | .object _ _ => true
  | .interface _ _ => true
  | .union _ => true
  | _ => false

/-- The fields of an object or an interface. -/
def fields : TypeBody → List FieldDefinition
  | .object _ fs => fs
  | .interface _ fs => fs
  | _ => []

end TypeBody

/-- Whether a name is that of an object type. -/
def isObjectName (types : List TypeDefinition) (name : String) : Bool :=
  match findType? types name with
  | some t => t.body.isObject
  | none => false

/-- The field that gives the name of the object type at run time. -/
def typenameField : FieldDefinition where
  position := ⟨0, 0⟩
  description := some "The name of the current Object type at runtime."
  name := "__typename"
  arguments := []
  type := .named false "String"
  directives := []

/-- Why a field is deprecated: the reason given, or the default one. -/
def FieldDefinition.deprecation? (f : FieldDefinition) : Option String :=
  (f.directives.find? fun d => d.name == "deprecated").map fun d =>
    match d.arguments.find? fun a => a.1 == "reason" with
    | some (_, .string reason) => reason
    | _ => "No longer supported"

namespace Schema

def type? (s : Schema) (name : String) : Option TypeDefinition := findType? s.types name

/-- The root type of a kind of operation. -/
def root? (s : Schema) : OperationKind → Option String
  | .query => some s.query
  | .mutation => s.mutation
  | .subscription => s.subscription

/-- The description of a type. -/
def description? (s : Schema) (type : String) : Option String :=
  (s.type? type).bind TypeDefinition.description

/-- The definition of a field on a type. Every composite type has a field for its name. -/
def field? (s : Schema) (type field : String) : Option FieldDefinition :=
  (s.type? type).bind fun t =>
    if field = "__typename" then if t.body.isComposite then some typenameField else none
    else t.body.fields.find? fun f => f.name == field

end Schema

end SelectionModel
