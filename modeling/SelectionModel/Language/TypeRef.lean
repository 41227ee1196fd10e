/-!
# Type references

The type of a field, an argument or a variable: a named type or a list, each of
which may or may not be null.
-/

namespace SelectionModel

/-- A reference to a type. -/
inductive TypeRef where
  | named (nullable : Bool) (name : String)
  | list (nullable : Bool) (inner : TypeRef)
  deriving DecidableEq, Repr, Inhabited

namespace TypeRef

def nullable : TypeRef → Bool
  | .named n _ => n
  | .list n _ => n

/-- The name of the type inside all lists. -/
def innermostName : TypeRef → String
  | .named _ name => name
  | .list _ inner => inner.innermostName

/-- The type in the notation of the language. -/
def text : TypeRef → String
  | .named n name => name ++ (if n then "" else "!")
  | .list n inner => "[" ++ inner.text ++ "]" ++ (if n then "" else "!")

end TypeRef

end SelectionModel
