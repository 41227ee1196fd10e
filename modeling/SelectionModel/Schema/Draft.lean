import SelectionModel.Files.Reading
import SelectionModel.Schema.Basic

/-!
# Putting a schema together

A draft collects the definitions of any number of documents. Extensions wait
until all documents are loaded, so that they may stand anywhere; they are folded
into their types in the order in which they were loaded.
-/

namespace SelectionModel

/-- Why there is no schema. -/
inductive SchemaError where
  | duplicateType (type : String) (first second : SourceLocation)
  | extensionOfUndefinedType (type : String) (location : SourceLocation)
  | extensionOfOtherKind (type : String) (location : SourceLocation)
  | invalidRootType (type : String)
  | noQueryType
  | parse (label : String) (position : Position)
  | unreadable (cause : ReadError)
  deriving DecidableEq, Repr

namespace SchemaError

def message : SchemaError → String
  | .duplicateType type _ _ => "Multiple types were defined with the name `" ++ type ++ "`"
  | .extensionOfUndefinedType type _ =>
    "Type extension targets `" ++ type ++ "`, which is not defined"
  | .extensionOfOtherKind type _ =>
    "Type extension for `" ++ type ++ "` does not match the kind of its definition"
  | .invalidRootType type =>
    "Root operation type `" ++ type ++ "` is not an object type defined in the schema"
  | .noQueryType => "No Query operation type was defined in the schema"
  | .parse label position =>
    "Error parsing schema document " ++ Text.quoted label ++
      ": schema parse error: Parse error at " ++ position.text
  | .unreadable cause => "Failure while trying to read a schema file from disk: " ++ cause.message

def locations : SchemaError → List SourceLocation
  | .duplicateType _ first second => [first, second]
  | .extensionOfUndefinedType _ location => [location]
  | .extensionOfOtherKind _ location => [location]
  | _ => []

end SchemaError

/-- A type definition and where it stands. -/
structure LocatedType where
  location : SourceLocation
  definition : TypeDefinition

/-- A type extension and where it stands. -/
structure LocatedExtension where
  location : SourceLocation
  extension : TypeExtension

/-- The definitions of the documents loaded so far. -/
structure SchemaDraft where
  roots : RootTypes := {}
  types : List LocatedType := []
  extensions : List LocatedExtension := []
  /-- How many documents without a path were loaded. -/
  unnamed : Nat := 0

/-- What an extension makes of a type's body; none when their kinds differ. -/
def TypeBody.extend? : TypeBody → TypeBody → Option TypeBody
  | .scalar, .scalar => some .scalar
  | .object is fs, .object is' fs' => some (.object (is ++ is') (fs ++ fs'))
  | .interface is fs, .interface is' fs' => some (.interface (is ++ is') (fs ++ fs'))
  | .union ms, .union ms' => some (.union (ms ++ ms'))
  | .enum vs, .enum vs' => some (.enum (vs ++ vs'))
  | .inputObject fs, .inputObject fs' => some (.inputObject (fs ++ fs'))
  | _, _ => none

/-- A type with an extension appended; none when their kinds differ. -/
def TypeDefinition.extend? (t : TypeDefinition) (e : TypeExtension) : Option TypeDefinition :=
  (t.body.extend? e.body).map fun body =>
    { t with directives := t.directives ++ e.directives, body := body }

/-- Appends an extension to the type it names. -/
def applyExtension (e : LocatedExtension) :
    List TypeDefinition → Except SchemaError (List TypeDefinition)
  | [] => .error (.extensionOfUndefinedType e.extension.name e.location)
  | t :: ts =>
    if t.name = e.extension.name then
      match t.extend? e.extension with
      | some t => .ok (t :: ts)
      | none => .error (.extensionOfOtherKind e.extension.name e.location)
    else
      match applyExtension e ts with
      | .ok ts => .ok (t :: ts)
      | .error err => .error err

/-- The scalars that every schema has. -/
def builtInScalars : List String := ["Boolean", "Float", "ID", "Int", "String"]

/-- The definition of a scalar that every schema has. -/
def builtInScalar (name : String) : TypeDefinition where
  position := ⟨0, 0⟩
  description := none
  name := name
  directives := []
  body := .scalar

/-- The types and those built-in scalars that are missing among them. -/
def withBuiltIns (types : List TypeDefinition) : List TypeDefinition :=
  types ++ (builtInScalars.filter fun n => (findType? types n).isNone).map builtInScalar

/-- A name, if it is that of an object type. -/
def objectNamed? (types : List TypeDefinition) (name : String) : Option String :=
  if isObjectName types name then some name else none

/-- Fails unless a root type that was named is an object type. -/
def checkRoot (types : List TypeDefinition) : Option String → Except SchemaError Unit
  | none => .ok ()
  | some name => if isObjectName types name then .ok () else .error (.invalidRootType name)

namespace SchemaDraft

def empty : SchemaDraft := {}

/-- Takes the roots that a schema definition names, in place of earlier ones. -/
def overrideRoots (roots named : RootTypes) : RootTypes where
  query := named.query.or roots.query
  mutation := named.mutation.or roots.mutation
  subscription := named.subscription.or roots.subscription

/-- Adds one definition of a document that goes by a label. -/
def addDefinition (label : String) (d : SchemaDraft) :
    SchemaDefinition → Except SchemaError SchemaDraft
  | .directive => .ok d
  | .roots named => .ok { d with roots := overrideRoots d.roots named }
  | .extension e =>
    .ok { d with extensions := d.extensions ++ [⟨.schema ⟨some label, e.position⟩, e⟩] }
  | .type t =>
    let location := SourceLocation.schema ⟨some label, t.position⟩
    match d.types.find? fun known => known.definition.name == t.name with
    | some known => .error (.duplicateType t.name known.location location)
    | none => .ok { d with types := d.types ++ [⟨location, t⟩] }

/-- The label of a document without a path, before which as many others were
loaded. It is a number of 16 bits. -/
def unnamedLabel (others : Nat) : String := "str://" ++ toString (others % 65536)

/-- **Loads a document.** Documents without a path are numbered. -/
def load (d : SchemaDraft) (path : Option String) (text : List Char) :
    Except SchemaError SchemaDraft :=
  let (label, d) := match path with
    | some path => (path, d)
    | none => (unnamedLabel d.unnamed, { d with unnamed := d.unnamed + 1 })
  match parseSchema text with
  | .error position => .error (.parse label position)
  | .ok definitions => definitions.foldlM (addDefinition label) d

/-- Loads a document from a file. -/
def loadFile (find : Files) (d : SchemaDraft) (path : String) : Except SchemaError SchemaDraft :=
  match readText find path with
  | .ok text => d.load (some path) text
  | .error cause => .error (.unreadable cause)

/-- The loaded types with their extensions. -/
def extendedTypes (d : SchemaDraft) : Except SchemaError (List TypeDefinition) :=
  d.extensions.foldlM (fun types e => applyExtension e types) (d.types.map (·.definition))

/-- **The schema of all loaded documents.** A root type that no definition
names is the object type of the usual name. -/
def build (d : SchemaDraft) : Except SchemaError Schema := do
  let extended ← d.extendedTypes
  let types := withBuiltIns extended
  match d.roots.query.or (objectNamed? types "Query") with
  | none => .error .noQueryType
  | some query =>
    checkRoot types (some query)
    checkRoot types d.roots.mutation
    checkRoot types d.roots.subscription
    return {
      types := types
      query := query
      mutation := d.roots.mutation.or (objectNamed? types "Mutation")
      subscription := d.roots.subscription.or (objectNamed? types "Subscription") }

end SchemaDraft

end SelectionModel
