/-!
# Positions and locations

A position is a line and a column, both counted from one. A location says in
which document the position is.
-/

namespace SelectionModel

/-- A line and a column of a text. -/
structure Position where
  line : Nat
  column : Nat
  deriving DecidableEq, Repr, Inhabited

/-- A position in a file, or in a text that has no file. -/
structure FilePosition where
  file : Option String
  position : Position
  deriving DecidableEq, Repr, Inhabited

/-- Where something was defined. -/
inductive SourceLocation where
  /-- In a document of operations and fragments. -/
  | executable (place : FilePosition)
  /-- In a document of type definitions. -/
  | schema (place : FilePosition)
  /-- By the language itself. -/
  | builtIn
  deriving DecidableEq, Repr, Inhabited

/-- A position as messages show it. -/
def Position.text (p : Position) : String := toString p.line ++ ":" ++ toString p.column

def FilePosition.text (p : FilePosition) : String := p.file.getD "<str>" ++ ":" ++ p.position.text

def SourceLocation.text : SourceLocation → String
  | .executable p => p.text
  | .schema p => p.text
  | .builtIn => "<builtin>"

end SelectionModel
