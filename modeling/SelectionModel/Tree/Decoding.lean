import SelectionModel.Json.Basic
import SelectionModel.Tree.Definition

/-!
# Trees from JSON

Reading models from their JSON form. Members may stand in any order, and unknown
ones are ignored; what may be absent is absent when it is null or missing. A
record may also be written as the array of its members in their order.

Inside of a fragment a word may be written in more ways than elsewhere, so what
can stand inside of one is read in a `Context`.

Values that contain themselves are read up to a depth, for which that of the
JSON value suffices.
-/

namespace SelectionModel

namespace Decode

variable {α : Type}

/-- Where a value stands. -/
inductive Context where
  | outside
  | insideFragment
  deriving DecidableEq, Repr

/-- The members of a record. -/
def record? (names : List String) : Json → Option (List (String × Json))
  | .object members => some members
  | .array items => if items.length = names.length then some (names.zip items) else none
  | _ => none

/-- One of several kinds. Inside of a fragment it may be given by its position
among them. -/
def kind? (context : Context) (kinds : List String) : Json → Option String
  | .string kind => some kind
  | .int i => if context = .insideFragment ∧ 0 ≤ i then kinds[i.toNat]? else none
  | _ => none

/-- Kind and members of a record whose kind says which members it has. The kind
comes first in an array. -/
def recordOfKind? (context : Context) (names : List (String × List String)) :
    Json → Option (String × List (String × Json))
  | .object members =>
    ((members.lookup "kind").bind (kind? context (names.map Prod.fst))).map fun kind =>
      (kind, members)
  | .array (first :: items) => do
    let kind ← kind? context (names.map Prod.fst) first
    let members ← record? (← names.lookup kind) (.array items)
    return (kind, members)
  | _ => none

/-- A member that has to be there. -/
def required? (read : Json → Option α) (name : String) (members : List (String × Json)) :
    Option α :=
  (members.lookup name).bind read

/-- A member that may be null or missing. -/
def optional? (read : Json → Option α) (name : String) (members : List (String × Json)) :
    Option (Option α) :=
  match members.lookup name with
  | none => some none
  | some .null => some none
  | some j => (read j).map some

def text? : Json → Option String
  | .string s => some s
  | _ => none

def flag? : Json → Option Bool
  | .bool b => some b
  | _ => none

/-- An integer of 64 bits. -/
def int64? : Json → Option Int
  | .int i => if -0x8000000000000000 ≤ i ∧ i < 0x8000000000000000 then some i else none
  | _ => none

/-- A count of 64 bits. -/
def count? : Json → Option Nat
  | .int i => if 0 ≤ i ∧ i < 0x10000000000000000 then some i.toNat else none
  | _ => none

/-- A number of any kind. -/
def double? : Json → Option Binary64
  | .float x => some x
  | .int i => some (Binary64.ofInt i)
  | _ => none

/-- The items of an array. -/
def list? (read : Json → Option α) : Json → Option (List α)
  | .array items => items.mapM read
  | _ => none

/-- The items of an array, each at its first occurrence. -/
def set? [DecidableEq α] (read : Json → Option α) (j : Json) : Option (OrderedSet α) :=
  (list? read j).map OrderedSet.ofList

/-- A word by itself, or as the name of a member that is null or, inside of a
fragment, an empty object. -/
def word? (context : Context) : Json → Option String
  | .string s => some s
  | .object [(s, .null)] => some s
  | .object [(s, .object [])] => if context = .insideFragment then some s else none
  | _ => none

end Decode

open Decode

def FilePosition.ofJson? (j : Json) : Option FilePosition := do
  let ms ← record? ["col", "file", "line"] j
  let column ← required? count? "col" ms
  let file ← optional? text? "file" ms
  let line ← required? count? "line" ms
  return ⟨file, ⟨line, column⟩⟩

def SourceLocation.ofJsonIn? (context : Context) (j : Json) : Option SourceLocation :=
  match j with
  | .object [("ExecutableDocument", p)] => (FilePosition.ofJson? p).map .executable
  | .object [("Schema", p)] => (FilePosition.ofJson? p).map .schema
  | j => if word? context j = some "GraphQLBuiltIn" then some .builtIn else none

def SourceLocation.ofJson? (j : Json) : Option SourceLocation :=
  SourceLocation.ofJsonIn? .outside j

def TypeRef.ofJsonAt? : Nat → Json → Option TypeRef
  | 0, _ => none
  | depth + 1, j =>
    match j with
    | .object [("Named", body)] => do
      let ms ← record? ["nullable", "typeName"] body
      let nullable ← required? flag? "nullable" ms
      let name ← required? text? "typeName" ms
      return .named nullable name
    | .object [("List", body)] => do
      let ms ← record? ["innerType", "nullable"] body
      let inner ← required? (TypeRef.ofJsonAt? depth) "innerType" ms
      let nullable ← required? flag? "nullable" ms
      return .list nullable inner
    | _ => none

def TypeRef.ofJson? (j : Json) : Option TypeRef := TypeRef.ofJsonAt? j.depth j

/-- The kinds of values. -/
def Value.kinds : List String :=
  ["boolean", "enum", "float", "int", "list", "null", "object", "string", "variable"]

/-- Kind and content of a value, as an array or as members. -/
def Decode.kindAndContent? (context : Context) (j : Json) : Option (String × Option Json) :=
  match j with
  | .array [kind, content] => (kind? context Value.kinds kind).map fun kind => (kind, some content)
  | .object members => (required? (word? context) "kind" members).map fun kind =>
      (kind, members.lookup "value")
  | _ => none

def Value.ofJsonAt? (context : Context) : Nat → Json → Option Value
  | 0, _ => none
  | depth + 1, j =>
    match kindAndContent? context j with
    | some ("null", none) => some .null
    | some ("null", some .null) => some .null
    | some ("boolean", some c) => (flag? c).map .boolean
    | some ("enum", some c) => (Decode.text? c).map .enum
    | some ("float", some c) => (double? c).map .float
    | some ("int", some c) => (int64? c).map .int
    | some ("string", some c) => (Decode.text? c).map .string
    | some ("variable", some c) => (Decode.text? c).map .variable
    | some ("list", some c) => (list? (Value.ofJsonAt? context depth) c).map .list
    | some ("object", some (.object members)) =>
      (members.mapM fun m : String × Json =>
        (Value.ofJsonAt? context depth m.2).map fun v => (m.1, v)).map .object
    | _ => none

def Value.ofJsonIn? (context : Context) (j : Json) : Option Value :=
  Value.ofJsonAt? context j.depth j

def Value.ofJson? (j : Json) : Option Value := Value.ofJsonIn? .outside j

def Condition.ofJsonIn? (context : Context) (j : Json) : Option Condition :=
  match recordOfKind? context [("boolean", ["variableName", "inverted"])] j with
  | some ("boolean", ms) => do
    let name ← required? text? "variableName" ms
    let inverted ← required? flag? "inverted" ms
    return ⟨name, inverted⟩
  | _ => none

def Condition.ofJson? (j : Json) : Option Condition := Condition.ofJsonIn? .outside j

def KeyScope.ofJsonIn? (context : Context) (j : Json) : Option KeyScope :=
  match word? context j with
  | some "Query" => some .query
  | some "Fragment" => some .fragment
  | _ => none

def SelectionKey.memberNames : List String := ["keyType", "segments"]

def SelectionKey.ofJsonIn? (context : Context) (j : Json) : Option SelectionKey := do
  let ms ← record? SelectionKey.memberNames j
  let scope ← required? (KeyScope.ofJsonIn? context) "keyType" ms
  let segments ← required? (list? text?) "segments" ms
  match segments with
  | root :: path => return ⟨scope, root, path⟩
  | [] => none

def SelectionKey.ofJson? (j : Json) : Option SelectionKey := SelectionKey.ofJsonIn? .outside j

def Argument.ofJsonIn? (context : Context) (j : Json) : Option Argument := do
  let ms ← record? ["name", "typeAnnotation", "value"] j
  let name ← required? text? "name" ms
  let type ← required? TypeRef.ofJson? "typeAnnotation" ms
  let value ← required? (Value.ofJsonIn? context) "value" ms
  return ⟨name, type, value⟩

def Argument.ofJson? (j : Json) : Option Argument := Argument.ofJsonIn? .outside j

def Field.memberNames : List String :=
  ["alias", "arguments", "conditions", "defLocation", "deprecationReason", "description", "fields",
    "fragments", "name", "selectionKeys", "typeAnnotation"]

/-- The kinds of fragments with their members. -/
def Fragment.memberNames : List (String × List String) :=
  [("implementation", ["conditions", "description", "fields", "name", "possibleTypes",
      "selectionKeys", "typeConditions"]),
    ("interface", ["conditions", "description", "fields", "possibleTypes", "selectionKeys",
      "typeCondition"])]

mutual

def Field.ofJsonAt? (context : Context) : Nat → Json → Option Field
  | 0, _ => none
  | depth + 1, j => do
    let ms ← record? Field.memberNames j
    let aliasName ← optional? text? "alias" ms
    let arguments ← required? (list? (Argument.ofJsonIn? context)) "arguments" ms
    let conditions ← required? (list? (Condition.ofJsonIn? context)) "conditions" ms
    let location ← required? (SourceLocation.ofJsonIn? context) "defLocation" ms
    let deprecation ← optional? text? "deprecationReason" ms
    let description ← optional? text? "description" ms
    let fields ← required? (list? (Field.ofJsonAt? context depth)) "fields" ms
    let fragments ← required? (list? (Fragment.ofJsonAt? context depth)) "fragments" ms
    let name ← required? text? "name" ms
    let keys ← required? (set? (SelectionKey.ofJsonIn? context)) "selectionKeys" ms
    let type ← required? TypeRef.ofJson? "typeAnnotation" ms
    return ⟨aliasName, arguments, conditions, location, deprecation, description, fields, fragments,
      name, keys, type⟩

def Fragment.ofJsonAt? (context : Context) : Nat → Json → Option Fragment
  | 0, _ => none
  | depth + 1, j => do
    let (kind, ms) ← recordOfKind? context Fragment.memberNames j
    let conditions ← required? (list? (Condition.ofJsonIn? .insideFragment)) "conditions" ms
    let description ← optional? text? "description" ms
    let fields ← required? (list? (Field.ofJsonAt? .insideFragment depth)) "fields" ms
    let possibleTypes ← required? (set? text?) "possibleTypes" ms
    let keys ← required? (set? (SelectionKey.ofJsonIn? .insideFragment)) "selectionKeys" ms
    match kind with
    | "interface" =>
      let typeCondition ← required? text? "typeCondition" ms
      return .interface ⟨conditions, description, fields, possibleTypes, keys, typeCondition⟩
    | "implementation" =>
      let name ← required? text? "name" ms
      let typeConditions ← required? (list? text?) "typeConditions" ms
      return .implementation
        ⟨conditions, description, fields, name, possibleTypes, keys, typeConditions⟩
    | _ => none

end

def Field.ofJson? (j : Json) : Option Field := Field.ofJsonAt? .outside j.depth j

def Fragment.ofJson? (j : Json) : Option Fragment := Fragment.ofJsonAt? .outside j.depth j

def SelectionSet.memberNames : List String :=
  ["fields", "fragments", "possibleTypes", "selectionKeys", "typeCondition"]

def SelectionSet.ofJson? (j : Json) : Option SelectionSet := do
  let ms ← record? SelectionSet.memberNames j
  let fields ← required? (list? Field.ofJson?) "fields" ms
  let fragments ← required? (list? Fragment.ofJson?) "fragments" ms
  let possibleTypes ← required? (set? text?) "possibleTypes" ms
  let keys ← required? (set? SelectionKey.ofJson?) "selectionKeys" ms
  let typeCondition ← required? text? "typeCondition" ms
  return ⟨fields, fragments, possibleTypes, keys, typeCondition⟩

def NamedFragment.memberNames : List String :=
  ["defLocation", "defaultImplementationName", "defaultSelectionSet", "description", "name",
    "selectionSet", "sourceText"]

def NamedFragment.ofJson? (j : Json) : Option NamedFragment := do
  let ms ← record? NamedFragment.memberNames j
  let location ← required? SourceLocation.ofJson? "defLocation" ms
  let implementation ← required? text? "defaultImplementationName" ms
  let defaultSet ← required? SelectionSet.ofJson? "defaultSelectionSet" ms
  let description ← optional? text? "description" ms
  let name ← required? text? "name" ms
  let selectionSet ← required? SelectionSet.ofJson? "selectionSet" ms
  let sourceText ← required? text? "sourceText" ms
  return ⟨location, implementation, defaultSet, description, name, selectionSet, sourceText⟩

def Variable.ofJson? (j : Json) : Option Variable := do
  let ms ← record? ["defaultValue", "name", "typeAnnotation"] j
  let default ← optional? Value.ofJson? "defaultValue" ms
  let name ← required? text? "name" ms
  let type ← required? TypeRef.ofJson? "typeAnnotation" ms
  return ⟨default, name, type⟩

def OperationKind.ofJson? (j : Json) : Option OperationKind :=
  match word? .outside j with
  | some "Query" => some .query
  | some "Mutation" => some .mutation
  | some "Subscription" => some .subscription
  | _ => none

def Operation.memberNames : List String :=
  ["dataField", "defLocation", "name", "operationKind", "operationName", "rootType", "sourceText",
    "targetPackageHint", "variables"]

def Operation.ofJson? (j : Json) : Option Operation := do
  let ms ← record? Operation.memberNames j
  let data ← required? Field.ofJson? "dataField" ms
  let location ← required? SourceLocation.ofJson? "defLocation" ms
  let name ← required? text? "name" ms
  let kind ← required? OperationKind.ofJson? "operationKind" ms
  let declared ← required? text? "operationName" ms
  let rootType ← required? text? "rootType" ms
  let sourceText ← required? text? "sourceText" ms
  let packageHint ← required? text? "targetPackageHint" ms
  let variableDefinitions ← required? (list? Variable.ofJson?) "variables" ms
  return ⟨data, location, name, kind, declared, rootType, sourceText, packageHint,
    variableDefinitions⟩

def DocumentModel.memberNames : List String := ["fragments", "operations"]

def DocumentModel.ofJson? (j : Json) : Option DocumentModel := do
  let ms ← record? DocumentModel.memberNames j
  let fragments ← required? (list? NamedFragment.ofJson?) "fragments" ms
  let operations ← required? (list? Operation.ofJson?) "operations" ms
  return ⟨fragments, operations⟩

/-- Every option may be missing. -/
def BuildOptions.ofJson? (j : Json) : Option BuildOptions := do
  let names := ["packageName", "useSemanticNaming"]
  let ms ← match j with
    | .object ms => some ms
    | .array items => if items.length ≤ names.length then some (names.zip items) else none
    | _ => none
  let packageName ← optional? text? "packageName" ms
  let semanticNames ← match ms.lookup "useSemanticNaming" with
    | some j => flag? j
    | none => some true
  return ⟨packageName, semanticNames⟩

end SelectionModel
