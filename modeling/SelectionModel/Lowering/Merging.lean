import SelectionModel.Grouping
import SelectionModel.Lowering.Naming
import SelectionModel.Schema.PossibleTypes

/-!
# Merging

Fields of one response name become one field, and interfaces of one type
condition one interface. Keys and conditions are united and children are merged;
implementations are worked out anew from the merged interfaces.

Children are merged by the same rule one level down, so the functions here take
the merging of children as an argument; `mergeFields` ties the knot along the
depth of the fields.
-/

namespace SelectionModel

/-- What a lowering reads: the schema, and whether implementations are wanted. -/
structure Pass where
  schema : Schema
  withImplementations : Bool

/-- A selection whose fragments are put together. -/
structure Site where
  fields : List Field
  /-- The end of the names of its implementations. -/
  suffix : String
  possibleTypes : OrderedSet String
  keys : OrderedSet SelectionKey

/-! ## Inheritance -/

/-- Each key of a selection with the key of a fragment on a type right below it. -/
def rebasedKeys (keys : OrderedSet SelectionKey) (typeCondition : String) :
    List (SelectionKey × SelectionKey) :=
  keys.toList.map fun k => (k, k.child (capitalize typeCondition))

/-- The keys that a key turns into where its start is replaced by the key of a fragment. -/
def rebaseKey (rebased : List (SelectionKey × SelectionKey)) (k : SelectionKey) :
    List SelectionKey :=
  rebased.filterMap fun (start, replacement) => k.rebase? start replacement

/-- The fields of a selection as a fragment of it has them: they are reached
through the fragment as well. -/
def inheritFields (fields : List Field) (rebased : List (SelectionKey × SelectionKey)) :
    List Field :=
  fieldsWithDerivedKeys (rebaseKey rebased) fields

/-! ## Implementations -/

/-- The positions of the interfaces that an object type satisfies. -/
def satisfied (interfaces : List Interface) (type : String) : List Nat :=
  (List.range interfaces.length).filter fun i =>
    match interfaces[i]? with
    | some interface => decide (type ∈ interface.possibleTypes)
    | none => false

/-- The name of the model of the objects that satisfy some type conditions. -/
def implementationName (typeConditions : List String) (suffix : String) : String :=
  (if typeConditions.isEmpty then "Other" else String.join (typeConditions.map capitalize)) ++
    suffix

/-- The model of the object types that satisfy some interfaces. -/
def implementationOf (merge : List Field → List Field) (site : Site) (members : List Interface)
    (types : List String) : Implementation :=
  let typeConditions := members.map Interface.typeCondition
  { conditions := members.foldl (fun cs i => extendConditions cs i.conditions) []
    description := (members.head?).bind Interface.description
    fields := merge (site.fields ++ members.flatMap Interface.fields)
    name := implementationName typeConditions site.suffix
    possibleTypes := OrderedSet.ofList types
    keys := members.foldl (fun ks i => ks.union i.keys) site.keys
    typeConditions := typeConditions }

/-- **One model for each group of object types that satisfy the same interfaces.**
Types that satisfy none form a group as well, but without any interface there is
no group. -/
def implementations (merge : List Field → List Field) (interfaces : List Interface) (site : Site) :
    List Implementation :=
  if interfaces.isEmpty then []
  else
    (groupBy (satisfied interfaces) site.possibleTypes.toList).map fun group =>
      implementationOf merge site (group.key.filterMap fun i => interfaces[i]?) group.members

/-- Interfaces followed by the implementations that they call for. -/
def assemble (pass : Pass) (merge : List Field → List Field) (interfaces : List Interface)
    (site : Site) : List Fragment :=
  interfaces.map .interface ++
    if pass.withImplementations then (implementations merge interfaces site).map .implementation
    else []

/-! ## Interfaces and fields -/

/-- One interface from two with the same type condition. -/
def mergeInterfacePair (merge : List Field → List Field) (first second : Interface) : Interface :=
  { conditions := extendConditions first.conditions second.conditions
    description := first.description.or second.description
    fields := merge (first.fields ++ second.fields)
    possibleTypes := first.possibleTypes.union second.possibleTypes
    keys := first.keys.union second.keys
    typeCondition := first.typeCondition }

/-- **One interface for each type condition**, in the order of the first ones. -/
def mergeInterfaces (merge : List Field → List Field) (interfaces : List Interface) :
    List Interface :=
  (groupBy Interface.typeCondition interfaces).map fun group =>
    group.others.foldl (mergeInterfacePair merge) group.first

/-- An interface with the fields of its selection, which come first. -/
def coverFields (merge : List Field → List Field) (fields : List Field)
    (keys : OrderedSet SelectionKey) (i : Interface) : Interface :=
  { i with
    fields := merge (inheritFields fields (rebasedKeys keys i.typeCondition) ++ i.fields) }

/-- One field from two with the same response name. What only one of them can
give, such as its arguments and its place, comes from the first. -/
def mergeFieldPair (pass : Pass) (merge : List Field → List Field) (first second : Field) : Field :=
  let keys := first.keys.union second.keys
  let fields := merge (first.fields ++ second.fields)
  let interfaces :=
    (mergeInterfaces merge
      ((first.fragments ++ second.fragments).filterMap Fragment.interface?)).map
        (coverFields merge fields keys)
  let site : Site :=
    { fields := fields
      suffix := capitalize first.responseName
      possibleTypes := pass.schema.possibleTypes first.type.innermostName
      keys := keys }
  { first with
    conditions := extendConditions first.conditions second.conditions
    fields := fields
    fragments := assemble pass merge interfaces site
    keys := keys }

/-- Merges fields that are nested at most `depth` deep. -/
def mergeFieldsAt (pass : Pass) : Nat → List Field → List Field
  | 0, fields => fields
  | depth + 1, fields =>
    (groupBy Field.responseName fields).map fun group =>
      group.others.foldl (mergeFieldPair pass (mergeFieldsAt pass depth)) group.first

/-- **One field for each response name**, in the order of the first ones. -/
def mergeFields (pass : Pass) (fields : List Field) : List Field :=
  mergeFieldsAt pass (fieldsDepth fields) fields

end SelectionModel
