import SelectionModel.Language.OperationKind
import SelectionModel.Language.TypeRef
import SelectionModel.Source.Location

/-!
# Build errors

Why a definition has no model.
-/

namespace SelectionModel

/-- Why a value does not fit a type. Values are given as text. -/
inductive CoercionError where
  | unknownArgument (field : String)
  | nullNotAllowed (type : TypeRef)
  | mismatch (value type : String)
  | outOfRange (value : String)
  | notAnInputType (type : String)
  | undefinedType (type : String)
  | unknownField (type field : String)
  | missingField (type field : String)
  | inField (type field : String) (cause : CoercionError)
  deriving DecidableEq, Repr

def CoercionError.message : CoercionError → String
  | .unknownArgument field => "`" ++ field ++ "` does not accept an argument with this name"
  | .nullNotAllowed type => "`null` is not a valid `" ++ type.text ++ "`"
  | .mismatch value type => "`" ++ value ++ "` is not a valid `" ++ type ++ "`"
  | .outOfRange value => "`" ++ value ++ "` cannot be represented as a 32-bit signed integer"
  | .notAnInputType type => "`" ++ type ++ "` is not an input type"
  | .undefinedType type => "`" ++ type ++ "` is not defined in the schema"
  | .unknownField type field => "`" ++ type ++ "` has no field named `" ++ field ++ "`"
  | .missingField type field =>
    "`" ++ type ++ "." ++ field ++ "` is required but was not provided"
  | .inField type field cause => type ++ "." ++ field ++ ": " ++ cause.message

/-- Why a definition has no model. -/
inductive BuildError where
  | anonymousOperation (location : SourceLocation)
  | argumentCoercion (argument : String) (reason : CoercionError) (location : SourceLocation)
  | invalidDirectiveArgument (directive : String) (location : SourceLocation)
  | missingRootType (kind : OperationKind) (location : SourceLocation)
  | sourceTextUnavailable (definition : String) (location : SourceLocation)
  | undefinedField (field type : String) (location : SourceLocation)
  | undefinedFragment (fragment : String) (location : SourceLocation)
  | undefinedType (type : String) (location : SourceLocation)
  /-- A fragment is entered inside of itself. -/
  | cyclicFragment (fragment : String) (location : SourceLocation)
  deriving DecidableEq, Repr

namespace BuildError

def message : BuildError → String
  | .anonymousOperation _ => "Every operation must be named, but found an anonymous operation"
  | .argumentCoercion argument reason _ =>
    "Invalid value for argument `" ++ argument ++ "`: " ++ reason.message
  | .invalidDirectiveArgument directive _ =>
    "`@" ++ directive ++ "` expects a boolean literal or a variable as its condition"
  | .missingRootType kind _ =>
    "The schema does not define a " ++ kind.word ++ " root operation type"
  | .sourceTextUnavailable definition _ =>
    "Could not locate the source text of `" ++ definition ++ "`"
  | .undefinedField field type _ =>
    "Field `" ++ field ++ "` is not defined on type `" ++ type ++ "`"
  | .undefinedFragment fragment _ => "Fragment `" ++ fragment ++ "` is not defined"
  | .undefinedType type _ => "Type `" ++ type ++ "` is not defined in the schema"
  | .cyclicFragment fragment _ => "Fragment `" ++ fragment ++ "` spreads itself"

def location : BuildError → SourceLocation
  | .anonymousOperation l => l
  | .argumentCoercion _ _ l => l
  | .invalidDirectiveArgument _ l => l
  | .missingRootType _ l => l
  | .sourceTextUnavailable _ l => l
  | .undefinedField _ _ l => l
  | .undefinedFragment _ l => l
  | .undefinedType _ l => l
  | .cyclicFragment _ l => l

end BuildError

end SelectionModel
