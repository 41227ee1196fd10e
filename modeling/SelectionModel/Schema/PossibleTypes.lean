import SelectionModel.OrderedSet
import SelectionModel.Schema.Basic

/-!
# Possible types

The object types whose values a type stands for: an object for itself, an
interface for the objects that implement it, also through other interfaces, and
a union for its members that are objects. They stand in the order of the schema.
-/

namespace SelectionModel

/-- The interfaces that a type names, if it is a defined interface itself. -/
def interfacesOf (types : List TypeDefinition) (name : String) : List String :=
  match findType? types name with
  | some t => if t.body.isInterface then t.body.implements else []
  | none => []

/-- The names reached from some pending ones by following interfaces, added to
those already seen. A name is followed only once, and `bound` limits the steps. -/
def reachInterfaces (types : List TypeDefinition) :
    Nat → OrderedSet String → List String → OrderedSet String
  | 0, seen, _ => seen
  | _ + 1, seen, [] => seen
  | bound + 1, seen, name :: pending =>
    if name ∈ seen then reachInterfaces types bound seen pending
    else reachInterfaces types bound (seen.insert name) (interfacesOf types name ++ pending)

/-- All interfaces that an object implements, directly or through others. Each
`implements` clause is followed once at most, which bounds the steps. -/
def allInterfaces (types : List TypeDefinition) (implements : List String) : OrderedSet String :=
  reachInterfaces types
    (implements.length + (types.flatMap fun t => t.body.implements).length) ∅ implements

/-- Adds what one definition contributes to the possible types of a name. -/
def addPossible (types : List TypeDefinition) (name : String) (possible : OrderedSet String)
    (t : TypeDefinition) : OrderedSet String :=
  match t.body with
  | .object implements _ =>
    if t.name = name ∨ name ∈ allInterfaces types implements then possible.insert t.name
    else possible
  | .union members =>
    if t.name = name then possible.insertAll (members.filter (isObjectName types)) else possible
  | _ => possible

/-- The object types that a name stands for among some definitions. -/
def possibleTypesOf (types : List TypeDefinition) (name : String) : OrderedSet String :=
  types.foldl (addPossible types name) ∅

/-- **The object types that a type stands for.** -/
def Schema.possibleTypes (s : Schema) (type : String) : OrderedSet String :=
  possibleTypesOf s.types type

end SelectionModel
