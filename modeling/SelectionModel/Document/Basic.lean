import SelectionModel.Files.Reading
import SelectionModel.Language.Executable
import SelectionModel.Source.DefinitionText
import SelectionModel.Source.LineIndex

/-!
# Executable documents

A document of operations and fragments keeps the text it was read from, so that
the text of each definition can be taken from it unchanged.
-/

namespace SelectionModel

/-- A document of operations and fragments. -/
structure Document where
  file : Option String
  text : List Char
  index : LineIndex
  definitions : List Definition

/-- Why there is no document. -/
inductive DocumentError where
  | unreadable (cause : ReadError)
  | parse (file : Option String) (position : Position)
  deriving DecidableEq, Repr

def DocumentError.message : DocumentError → String
  | .unreadable cause =>
    "Failure while trying to read an executable document from disk: " ++ cause.message
  | .parse file position =>
    let label := match file with
      | some path => "Some(" ++ Text.quoted path ++ ")"
      | none => "None"
    "Error parsing executable document " ++ label ++ ": query parse error: Parse error at " ++
      position.text

namespace Document

/-- Reads a document from its text. -/
def ofText (file : Option String) (text : List Char) : Except DocumentError Document :=
  match parseExecutable text with
  | .ok definitions => .ok ⟨file, text, LineIndex.ofText text, definitions⟩
  | .error position => .error (.parse file position)

/-- Reads a document from the bytes of a file. -/
def ofBytes (path : String) (bytes : List UInt8) : Except DocumentError Document :=
  match decodeFile path bytes with
  | .ok text => ofText (some path) text
  | .error cause => .error (.unreadable cause)

/-- Reads a document from a file. -/
def ofFile (find : Files) (path : String) : Except DocumentError Document :=
  match readText find path with
  | .ok text => ofText (some path) text
  | .error cause => .error (.unreadable cause)

/-- **The text of the definition at a position**, from that position through the
brace that closes it. -/
def definitionSource? (d : Document) (p : Position) : Option String :=
  (d.index.offset? d.text p).bind fun start =>
    (definitionText? d.text start).map String.ofList

/-- The location of a position in the document. -/
def location (d : Document) (p : Position) : SourceLocation := .executable ⟨d.file, p⟩

/-- The fragments, in order. -/
def fragments (d : Document) : List FragmentDefinition :=
  d.definitions.filterMap fun
    | .fragment f => some f
    | .operation _ => none

/-- The operations, in order. -/
def operations (d : Document) : List OperationDefinition :=
  d.definitions.filterMap fun
    | .operation o => some o
    | .fragment _ => none

end Document

end SelectionModel
