import SelectionModel.Files.Tree
import SelectionModel.Text.Quoted
import SelectionModel.Text.Utf8

/-!
# Reading text files

A path is looked up where files are found, and its bytes are read as UTF-8.
-/

namespace SelectionModel

/-- Where files are found: the entry that a path names. -/
abbrev Files := String → Except PathFault FileTree

/-- Why a path does not give a text. -/
inductive ReadError where
  | notAFile (path : String)
  | notUtf8 (path : String) (fault : Text.Utf8Error)
  deriving DecidableEq, Repr

def ReadError.message : ReadError → String
  | .notAFile path => Text.quoted path ++ " is not a file"
  | .notUtf8 path fault =>
    "File at " ++ Text.quoted path ++ " is not valid UTF-8: " ++ fault.message

/-- The text that the bytes of a file spell. -/
def decodeFile (path : String) (bytes : List UInt8) : Except ReadError (List Char) :=
  match Text.decodeUtf8 bytes with
  | .ok text => .ok text
  | .error fault => .error (.notUtf8 path fault)

/-- The text of the file that a path names. -/
def readText (find : Files) (path : String) : Except ReadError (List Char) :=
  match find path with
  | .ok (.file bytes) => decodeFile path bytes
  | _ => .error (.notAFile path)

end SelectionModel
