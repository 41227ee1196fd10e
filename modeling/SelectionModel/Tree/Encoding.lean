import SelectionModel.Json.Basic
import SelectionModel.Tree.Definition

/-!
# Trees as JSON

The JSON form in which models are handed to code generators. Records are objects
with their members in a fixed order; what is absent is written as null.
-/

namespace SelectionModel

/-- A list of texts. -/
def Json.ofTexts (texts : List String) : Json := .array (texts.map .string)

/-- A number. An infinite one has no JSON form and is written as null. -/
def Json.ofDouble (x : Binary64) : Json := if x.isFinite then .float x else .null

def FilePosition.toJson (p : FilePosition) : Json :=
  .object [
    ("col", .int p.position.column),
    ("file", .ofOption p.file),
    ("line", .int p.position.line)]

def SourceLocation.toJson : SourceLocation → Json
  | .executable place => .object [("ExecutableDocument", place.toJson)]
  | .schema place => .object [("Schema", place.toJson)]
  | .builtIn => .string "GraphQLBuiltIn"

def TypeRef.toJson : TypeRef → Json
  | .named nullable name =>
    .object [("Named", .object [("nullable", .bool nullable), ("typeName", .string name)])]
  | .list nullable inner =>
    .object [("List", .object [("innerType", inner.toJson), ("nullable", .bool nullable)])]

/-- A value with the word for its kind. -/
def Json.tagged (kind : String) (value : Json) : Json :=
  .object [("kind", .string kind), ("value", value)]

mutual

def Value.toJson : Value → Json
  | .variable name => .tagged "variable" (.string name)
  | .int i => .tagged "int" (.int i)
  | .float x => .tagged "float" (.ofDouble x)
  | .string s => .tagged "string" (.string s)
  | .boolean b => .tagged "boolean" (.bool b)
  | .null => .object [("kind", .string "null")]
  | .enum name => .tagged "enum" (.string name)
  | .list items => .tagged "list" (.array (valuesToJson items))
  | .object entries => .tagged "object" (.object (entriesToJson entries))

def valuesToJson : List Value → List Json
  | [] => []
  | v :: vs => v.toJson :: valuesToJson vs

def entriesToJson : List (String × Value) → List (String × Json)
  | [] => []
  | (n, v) :: vs => (n, v.toJson) :: entriesToJson vs

end

def Condition.toJson (c : Condition) : Json :=
  .object [("kind", .string "boolean"), ("variableName", .string c.variableName),
    ("inverted", .bool c.inverted)]

def SelectionKey.toJson (k : SelectionKey) : Json :=
  .object [("keyType", .string k.scope.word), ("segments", .ofTexts k.segments)]

def Argument.toJson (a : Argument) : Json :=
  .object [("name", .string a.name), ("typeAnnotation", a.type.toJson), ("value", a.value.toJson)]

/-- A list of conditions. -/
def conditionsToJson (cs : List Condition) : Json := .array (cs.map Condition.toJson)

/-- A set of keys. -/
def keysToJson (ks : OrderedSet SelectionKey) : Json := .array (ks.toList.map SelectionKey.toJson)

mutual

def Field.toJson : Field → Json
  | ⟨aliasName, arguments, conditions, location, deprecation, description, fields, fragments, name,
      keys, type⟩ =>
    .object [
      ("alias", .ofOption aliasName),
      ("arguments", .array (arguments.map Argument.toJson)),
      ("conditions", conditionsToJson conditions),
      ("defLocation", location.toJson),
      ("deprecationReason", .ofOption deprecation),
      ("description", .ofOption description),
      ("fields", .array (fieldsToJson fields)),
      ("fragments", .array (fragmentsToJson fragments)),
      ("name", .string name),
      ("selectionKeys", keysToJson keys),
      ("typeAnnotation", type.toJson)]

def fieldsToJson : List Field → List Json
  | [] => []
  | f :: fs => f.toJson :: fieldsToJson fs

def Fragment.toJson : Fragment → Json
  | .interface ⟨conditions, description, fields, possibleTypes, keys, typeCondition⟩ =>
    .object [
      ("kind", .string "interface"),
      ("conditions", conditionsToJson conditions),
      ("description", .ofOption description),
      ("fields", .array (fieldsToJson fields)),
      ("possibleTypes", .ofTexts possibleTypes.toList),
      ("selectionKeys", keysToJson keys),
      ("typeCondition", .string typeCondition)]
  | .implementation ⟨conditions, description, fields, name, possibleTypes, keys, typeConditions⟩ =>
    .object [
      ("kind", .string "implementation"),
      ("conditions", conditionsToJson conditions),
      ("description", .ofOption description),
      ("fields", .array (fieldsToJson fields)),
      ("name", .string name),
      ("possibleTypes", .ofTexts possibleTypes.toList),
      ("selectionKeys", keysToJson keys),
      ("typeConditions", .ofTexts typeConditions)]

def fragmentsToJson : List Fragment → List Json
  | [] => []
  | g :: gs => g.toJson :: fragmentsToJson gs

end

def SelectionSet.toJson (s : SelectionSet) : Json :=
  .object [
    ("fields", .array (fieldsToJson s.fields)),
    ("fragments", .array (fragmentsToJson s.fragments)),
    ("possibleTypes", .ofTexts s.possibleTypes.toList),
    ("selectionKeys", keysToJson s.keys),
    ("typeCondition", .string s.typeCondition)]

def NamedFragment.toJson (f : NamedFragment) : Json :=
  .object [
    ("defLocation", f.location.toJson),
    ("defaultImplementationName", .string f.defaultImplementationName),
    ("defaultSelectionSet", f.defaultSelectionSet.toJson),
    ("description", .ofOption f.description),
    ("name", .string f.name),
    ("selectionSet", f.selectionSet.toJson),
    ("sourceText", .string f.sourceText)]

/-- An optional value. -/
def optionalValueToJson (v : Option Value) : Json :=
  match v with
  | some v => v.toJson
  | none => .null

def Variable.toJson (v : Variable) : Json :=
  .object [("defaultValue", optionalValueToJson v.default), ("name", .string v.name),
    ("typeAnnotation", v.type.toJson)]

def OperationKind.toJson (k : OperationKind) : Json := .string k.word

def Operation.toJson (o : Operation) : Json :=
  .object [
    ("dataField", o.data.toJson),
    ("defLocation", o.location.toJson),
    ("name", .string o.name),
    ("operationKind", o.kind.toJson),
    ("operationName", .string o.declaredName),
    ("rootType", .string o.rootType),
    ("sourceText", .string o.sourceText),
    ("targetPackageHint", .string o.packageHint),
    ("variables", .array (o.variableDefinitions.map Variable.toJson))]

def DocumentModel.toJson (d : DocumentModel) : Json :=
  .object [
    ("fragments", .array (d.fragments.map NamedFragment.toJson)),
    ("operations", .array (d.operations.map Operation.toJson))]

def BuildOptions.toJson (o : BuildOptions) : Json :=
  .object [("packageName", .ofOption o.packageName), ("useSemanticNaming", .bool o.semanticNames)]

end SelectionModel
