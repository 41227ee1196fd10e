import SelectionModel.Language.TypeRef
import SelectionModel.Language.Value
import SelectionModel.OrderedSet
import SelectionModel.Source.Location
import SelectionModel.Tree.SelectionKey

/-!
# Fields and fragments

The tree of models. A field has the fields selected on it and the fragments of
its selection: interfaces, one for each type condition, and implementations, one
for each group of object types that satisfy the same interfaces.
-/

namespace SelectionModel

/-- A condition on a variable: the selection counts while the variable is true,
or while it is false for an inverted condition. -/
structure Condition where
  variableName : String
  inverted : Bool
  deriving DecidableEq, Repr, Inhabited

/-- Whether the condition holds for a value of its variable. -/
def Condition.evaluate (c : Condition) (value : Bool) : Bool := value != c.inverted

/-- Adds the conditions that are not there yet. -/
def extendConditions (conditions additional : List Condition) : List Condition :=
  additional.foldl (fun done c => if c ∈ done then done else done ++ [c]) conditions

/-- An argument with its coerced value. -/
structure Argument where
  name : String
  type : TypeRef
  value : Value
  deriving Inhabited

mutual

/-- A selected field. -/
structure Field where
  aliasName : Option String
  arguments : List Argument
  conditions : List Condition
  location : SourceLocation
  deprecation : Option String
  description : Option String
  fields : List Field
  fragments : List Fragment
  name : String
  keys : OrderedSet SelectionKey
  type : TypeRef

/-- A part of a selection that depends on the type of the object. -/
inductive Fragment where
  | interface (i : Interface)
  | implementation (m : Implementation)

/-- What all objects under one type condition have. -/
structure Interface where
  conditions : List Condition
  description : Option String
  fields : List Field
  possibleTypes : OrderedSet String
  keys : OrderedSet SelectionKey
  typeCondition : String

/-- A model of the objects that satisfy the same type conditions. -/
structure Implementation where
  conditions : List Condition
  description : Option String
  fields : List Field
  name : String
  possibleTypes : OrderedSet String
  keys : OrderedSet SelectionKey
  typeConditions : List String

end

/-- The key of a field in a response: its alias if it has one, otherwise its name. -/
def Field.responseName (f : Field) : String := f.aliasName.getD f.name

namespace Fragment

/-- An interface is named for its type condition. -/
def name : Fragment → String
  | .interface i => i.typeCondition
  | .implementation m => m.name

def conditions : Fragment → List Condition
  | .interface i => i.conditions
  | .implementation m => m.conditions

def fields : Fragment → List Field
  | .interface i => i.fields
  | .implementation m => m.fields

def possibleTypes : Fragment → OrderedSet String
  | .interface i => i.possibleTypes
  | .implementation m => m.possibleTypes

def keys : Fragment → OrderedSet SelectionKey
  | .interface i => i.keys
  | .implementation m => m.keys

def interface? : Fragment → Option Interface
  | .interface i => some i
  | .implementation _ => none

def implementation? : Fragment → Option Implementation
  | .interface _ => none
  | .implementation m => some m

end Fragment

/-- The selection at the root of a fragment. -/
structure SelectionSet where
  fields : List Field
  fragments : List Fragment
  possibleTypes : OrderedSet String
  keys : OrderedSet SelectionKey
  typeCondition : String

/-! ## Depth -/

mutual

/-- How deep fields are nested, counting the fields of fragments. -/
def Field.depth : Field → Nat
  | ⟨_, _, _, _, _, _, fields, fragments, _, _, _⟩ =>
    max (fieldsDepth fields) (fragmentsDepth fragments) + 1

/-- The depth of the deepest of some fields. -/
def fieldsDepth : List Field → Nat
  | [] => 0
  | f :: fs => max f.depth (fieldsDepth fs)

/-- The depth of the deepest field of a fragment. -/
def Fragment.depth : Fragment → Nat
  | .interface ⟨_, _, fields, _, _, _⟩ => fieldsDepth fields
  | .implementation ⟨_, _, fields, _, _, _, _⟩ => fieldsDepth fields

/-- The depth of the deepest field of some fragments. -/
def fragmentsDepth : List Fragment → Nat
  | [] => 0
  | g :: gs => max g.depth (fragmentsDepth gs)

end

/-! ## Additional keys -/

/-- A set of keys with the keys that are derived from each of them. -/
def deriveKeys (derive : SelectionKey → List SelectionKey) (keys : OrderedSet SelectionKey) :
    OrderedSet SelectionKey :=
  keys.insertAll (keys.toList.flatMap derive)

mutual

/-- The field with derived keys added on every model of its tree. -/
def Field.withDerivedKeys (derive : SelectionKey → List SelectionKey) : Field → Field
  | ⟨aliasName, arguments, conditions, location, deprecation, description, fields, fragments, name,
      keys, type⟩ =>
    ⟨aliasName, arguments, conditions, location, deprecation, description,
      fieldsWithDerivedKeys derive fields, fragmentsWithDerivedKeys derive fragments, name,
      deriveKeys derive keys, type⟩

def fieldsWithDerivedKeys (derive : SelectionKey → List SelectionKey) : List Field → List Field
  | [] => []
  | f :: fs => f.withDerivedKeys derive :: fieldsWithDerivedKeys derive fs

/-- The fragment with derived keys added on every model of its tree. -/
def Fragment.withDerivedKeys (derive : SelectionKey → List SelectionKey) : Fragment → Fragment
  | .interface ⟨conditions, description, fields, possibleTypes, keys, typeCondition⟩ =>
    .interface ⟨conditions, description, fieldsWithDerivedKeys derive fields, possibleTypes,
      deriveKeys derive keys, typeCondition⟩
  | .implementation ⟨conditions, description, fields, name, possibleTypes, keys, typeConditions⟩ =>
    .implementation ⟨conditions, description, fieldsWithDerivedKeys derive fields, name,
      possibleTypes, deriveKeys derive keys, typeConditions⟩

def fragmentsWithDerivedKeys (derive : SelectionKey → List SelectionKey) :
    List Fragment → List Fragment
  | [] => []
  | g :: gs => g.withDerivedKeys derive :: fragmentsWithDerivedKeys derive gs

end

/-- The selection with derived keys added on every model of its tree. -/
def SelectionSet.withDerivedKeys (derive : SelectionKey → List SelectionKey) (s : SelectionSet) :
    SelectionSet :=
  { s with
    fields := fieldsWithDerivedKeys derive s.fields
    fragments := fragmentsWithDerivedKeys derive s.fragments
    keys := deriveKeys derive s.keys }

end SelectionModel
