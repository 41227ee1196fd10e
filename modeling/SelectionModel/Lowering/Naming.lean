import SelectionModel.Files.Path
import SelectionModel.Language.OperationKind
import SelectionModel.Tree.Definition

/-!
# Names of models

Models are named for fields, types and definitions, whose names hold ASCII
letters, digits and underscores only.
-/

namespace SelectionModel

/-- A name with its first letter in upper case. -/
def capitalize (name : String) : String :=
  match name.toList with
  | [] => ""
  | c :: cs => String.ofList (c.toUpper :: cs)

/-- The name of an operation's model. With semantic names it ends in the kind of
the operation, which is not repeated. -/
def operationModelName (semantic : Bool) (kind : OperationKind) (name : String) : String :=
  let capitalized := capitalize name
  if semantic && !(kind.word.toList.isSuffixOf capitalized.toList) then capitalized ++ kind.word
  else capitalized

/-- The dotted package that the directories of a document suggest. -/
def packageHint (file : Option String) : String :=
  match file with
  | none => ""
  | some path => String.intercalate "." (Path.directories path)

/-- The name of a fragment's default implementation. -/
def defaultImplementationName (fragmentModel : String) : String := fragmentModel ++ "Impl"

end SelectionModel
