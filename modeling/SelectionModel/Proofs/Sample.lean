import SelectionModel.Lowering.Definitions
import SelectionModel.Proofs.Steps

/-!
# A sample service

A small service whose one operation puts fragments together in all ways at once:
fragments in fragments, a type condition that occurs twice, and a field that is
selected on two types of objects.

```
query Q { node { ...F  ... on B { f { ... on Y { b } } }  ... on N { id } } }
fragment F on A { x  f { ... on X { a } }  ... on N { id } }
```
-/

namespace SelectionModel

namespace Sample

/-- A field of a type, without arguments. -/
def fieldDefinition (name type : String) : FieldDefinition where
  position := ⟨1, 1⟩
  description := none
  name := name
  arguments := []
  type := .named true type
  directives := []

/-- A type without a description. -/
def typeDefinition (name : String) (body : TypeBody) : TypeDefinition where
  position := ⟨1, 1⟩
  description := none
  name := name
  directives := []
  body := body

def schema : Schema where
  types := [
    typeDefinition "Query" (.object [] [fieldDefinition "node" "N"]),
    typeDefinition "N" (.interface [] [fieldDefinition "id" "ID"]),
    typeDefinition "A" (.object ["N"]
      [fieldDefinition "id" "ID", fieldDefinition "x" "String", fieldDefinition "f" "X"]),
    typeDefinition "B" (.object ["N"] [fieldDefinition "id" "ID", fieldDefinition "f" "Y"]),
    typeDefinition "X" (.object [] [fieldDefinition "a" "String"]),
    typeDefinition "Y" (.object [] [fieldDefinition "b" "String"])]
  query := "Query"
  mutation := none
  subscription := none

/-- A selected field. -/
def select (name : String) (selections : List Selection) : Selection :=
  .field ⟨⟨1, 1⟩, none, name, [], []⟩ selections

/-- Selections on a type. -/
def on (type : String) (selections : List Selection) : Selection :=
  .inlineFragment ⟨1, 1⟩ (some type) [] selections

/-- The fragment `F`. -/
def fragment : RegisteredFragment where
  definition :=
    ⟨⟨2, 1⟩, "F", "A",
      [select "x" [], select "f" [on "X" [select "a" []]], on "N" [select "id" []]]⟩
  file := none
  sourceText := "fragment F on A { x f { ... on X { a } } ... on N { id } }"

def registry : Registry := ⟨[fragment], List.pairwise_singleton _ _⟩

/-- What is selected on `B`. -/
def onB : List Selection := [select "f" [on "Y" [select "b" []]]]

/-- The selections on the field `node`. -/
def nodeSelections : List Selection :=
  [.spread ⟨1, 1⟩ "F" [], on "B" onB, on "N" [select "id" []]]

/-- The operation `Q`. -/
def operation : OperationDefinition where
  position := ⟨1, 1⟩
  keyword := some .query
  name := some "Q"
  variableDefinitions := []
  selections := [select "node" nodeSelections]

/-- The text of the operation. -/
def text : List Char :=
  "query Q { node { ...F ... on B { f { ... on Y { b } } } ... on N { id } } }".toList

def document : Document := ⟨none, text, LineIndex.ofText text, [.operation operation]⟩

def builder : Builder := ⟨schema, registry, {}⟩

theorem exists_operation : ∃ op, builder.buildOperation document operation = .ok op := by
  obtain ⟨op, h, -⟩ := Except.exists_of_any (p := fun _ => True)
    (x := builder.buildOperation document operation) (by decide +kernel)
  exact ⟨op, h⟩

theorem exists_namedFragment : ∃ nf, builder.buildNamedFragment fragment = .ok nf := by
  obtain ⟨nf, h, -⟩ := Except.exists_of_any (p := fun _ => True)
    (x := builder.buildNamedFragment fragment) (by decide +kernel)
  exact ⟨nf, h⟩

/-- The place of the field `node`. -/
def nodePlace : Place :=
  ⟨"Node", "N", .singleton (((SelectionKey.ofRoot .query "QQuery").child "Data").child "Node")⟩

/-- The selections on the field `node`, as they are written in the operation. -/
def node : Selected := Selected.ofFile none nodeSelections

/-! ## Fragments in fragments

```
query Q { ...G ...G }
fragment G on Query { node { id ... on N { ... on A { x } } } }
```
-/

/-- The fragment `G`. -/
def nested : RegisteredFragment where
  definition :=
    ⟨⟨2, 1⟩, "G", "Query",
      [select "node" [select "id" [], on "N" [on "A" [select "x" []]]]]⟩
  file := none
  sourceText := "fragment G on Query { node { id ... on N { ... on A { x } } } }"

/-- The operation that spreads `G` twice. -/
def twice : OperationDefinition where
  position := ⟨1, 1⟩
  keyword := some .query
  name := some "Q"
  variableDefinitions := []
  selections := [.spread ⟨1, 1⟩ "G" [], .spread ⟨1, 1⟩ "G" []]

def twiceText : List Char := "query Q { ...G ...G }".toList

def twiceDocument : Document :=
  ⟨none, twiceText, LineIndex.ofText twiceText, [.operation twice]⟩

def nestedBuilder : Builder := ⟨schema, ⟨[nested], List.pairwise_singleton _ _⟩, {}⟩

end Sample

end SelectionModel
