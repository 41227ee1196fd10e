import SelectionModel.Language.Grammar

/-!
# Type definitions

The definitions of a schema document: types, extensions of types, and the root
types of operations. A definition has the position of its keyword, also behind a
description or `extend`; a field has that of its description if there is one.
-/

namespace SelectionModel

/-- An argument of a field, or a field of an input object. -/
structure InputValueDefinition where
  description : Option String
  name : String
  type : TypeRef
  default : Option Value
  deriving Inhabited

/-- A field of an object or an interface. -/
structure FieldDefinition where
  position : Position
  description : Option String
  name : String
  arguments : List InputValueDefinition
  type : TypeRef
  directives : List Directive
  deriving Inhabited

/-- What a type consists of. -/
inductive TypeBody where
  | scalar
  | object (implements : List String) (fields : List FieldDefinition)
  | interface (implements : List String) (fields : List FieldDefinition)
  | union (members : List String)
  | enum (values : List String)
  | inputObject (fields : List InputValueDefinition)
  deriving Inhabited

/-- The definition of a type. -/
structure TypeDefinition where
  position : Position
  description : Option String
  name : String
  directives : List Directive
  body : TypeBody
  deriving Inhabited

/-- An extension of a type. -/
structure TypeExtension where
  position : Position
  name : String
  directives : List Directive
  body : TypeBody
  deriving Inhabited

/-- The root types that a schema definition names. -/
structure RootTypes where
  query : Option String := none
  mutation : Option String := none
  subscription : Option String := none
  deriving DecidableEq, Repr, Inhabited

/-- A definition of a schema document. -/
inductive SchemaDefinition where
  | roots (r : RootTypes)
  | type (d : TypeDefinition)
  | extension (e : TypeExtension)
  /-- A directive definition, which no answer depends on. -/
  | directive
  deriving Inhabited

namespace TypeExtension

/-- Whether an extension adds nothing. An interface gains nothing by implementing others. -/
def isEmpty (e : TypeExtension) : Bool :=
  e.directives.isEmpty &&
    match e.body with
    | .scalar => true
    | .object implements fields => implements.isEmpty && fields.isEmpty
    | .interface _ fields => fields.isEmpty
    | .union members => members.isEmpty
    | .enum values => values.isEmpty
    | .inputObject fields => fields.isEmpty

end TypeExtension

namespace Grammar

/-- A description, if there is one. -/
def description : Grammar (Option String) := do
  match ← peek with
  | some (.string s) => discard next; return some s
  | _ => return none

/-- An argument of a field, or a field of an input object. -/
def inputValueDefinition (bound : Nat) : Grammar InputValueDefinition := do
  let d ← description
  let n ← name
  punctuator ':'
  let t ← typeRef bound
  let v ← if ← skipPunctuator '=' then some <$> value true bound else pure none
  let _ ← directives bound
  return ⟨d, n, t, v⟩

/-- A field of an object or an interface. -/
def fieldDefinition (bound : Nat) : Grammar FieldDefinition := do
  let p ← position
  let d ← description
  let n ← name
  let args ← optionalBrackets '(' ')' (inputValueDefinition bound) bound
  punctuator ':'
  let t ← typeRef bound
  return ⟨p, d, n, args, t, ← directives bound⟩

/-- The interfaces that a type implements. -/
def implementsInterfaces (bound : Nat) : Grammar (List String) := do
  if ← skipKeyword "implements" then
    let _ ← skipPunctuator '&'
    separatedNames '&' bound
  else return []

/-- The name of an enum value. -/
def enumValue (bound : Nat) : Grammar String := do
  let _ ← description
  let n ← name
  let _ ← directives bound
  return n

/-- Name, directives and body of a type behind the keyword for its kind; none
when the word is no such keyword. -/
def typeOf? (word : String) (bound : Nat) : Option (Grammar (String × List Directive × TypeBody)) :=
  let composite (body : List String → List FieldDefinition → TypeBody) := do
    let n ← name
    let is ← implementsInterfaces bound
    let ds ← directives bound
    return (n, ds, body is (← optionalBrackets '\x7b' '\x7d' (fieldDefinition bound) bound))
  match word with
  | "scalar" => some do
    let n ← name
    return (n, ← directives bound, .scalar)
  | "type" => some (composite .object)
  | "interface" => some (composite .interface)
  | "union" => some do
    let n ← name
    let ds ← directives bound
    if ← skipPunctuator '=' then
      let _ ← skipPunctuator '|'
      return (n, ds, .union (← separatedNames '|' bound))
    else return (n, ds, .union [])
  | "enum" => some do
    let n ← name
    let ds ← directives bound
    return (n, ds, .enum (← optionalBrackets '\x7b' '\x7d' (enumValue bound) bound))
  | "input" => some do
    let n ← name
    let ds ← directives bound
    return (n, ds, .inputObject
      (← optionalBrackets '\x7b' '\x7d' (inputValueDefinition bound) bound))
  | _ => none

/-- Sets the root type of an operation; none for an unknown or repeated one. -/
def addRoot? (roots : RootTypes) (entry : String × String) : Option RootTypes :=
  match entry.1, roots.query, roots.mutation, roots.subscription with
  | "query", none, _, _ => some { roots with query := some entry.2 }
  | "mutation", _, none, _ => some { roots with mutation := some entry.2 }
  | "subscription", _, _, none => some { roots with subscription := some entry.2 }
  | _, _, _, _ => none

/-- A schema definition behind its keyword, which stood at a position. -/
def rootTypes (p : Position) (bound : Nat) : Grammar SchemaDefinition := do
  let _ ← directives bound
  punctuator '\x7b'
  let entries ← listUntil '\x7d' (do let n ← name; punctuator ':'; return (n, ← name)) bound
  match entries.foldl (fun roots? e => roots?.bind (addRoot? · e)) (some {}) with
  | some roots => return .roots roots
  | none => failAt p

/-- The places that a directive may be declared for. -/
def directiveLocations : List String :=
  ["QUERY", "MUTATION", "SUBSCRIPTION", "FIELD", "FRAGMENT_DEFINITION", "FRAGMENT_SPREAD",
    "INLINE_FRAGMENT", "SCHEMA", "SCALAR", "OBJECT", "FIELD_DEFINITION", "ARGUMENT_DEFINITION",
    "INTERFACE", "UNION", "ENUM", "ENUM_VALUE", "INPUT_OBJECT", "INPUT_FIELD_DEFINITION",
    "VARIABLE_DEFINITION"]

/-- A place that a directive may be declared for. -/
def directiveLocation : Grammar Unit := do
  match ← peek with
  | some (.name s) => if directiveLocations.contains s then discard next else fail
  | _ => fail

/-- The places of a directive, divided by bars. They may be missing, unless a
bar stands in front of them. -/
def optionalLocations (bound : Nat) : Grammar Unit := do
  let bar ← skipPunctuator '|'
  if bar || (← atName) then
    directiveLocation
    discard (whileAt (atPunctuator '|') (do punctuator '|'; directiveLocation) bound)

/-- A directive definition behind its keyword. -/
def directiveDefinition (bound : Nat) : Grammar SchemaDefinition := do
  punctuator '@'
  let _ ← name
  let _ ← optionalBrackets '(' ')' (inputValueDefinition bound) bound
  let _ ← skipKeyword "repeatable"
  keyword "on"
  optionalLocations bound
  return .directive

/-- An extension behind `extend`. It has to add something. -/
def typeExtension (bound : Nat) : Grammar SchemaDefinition := do
  let p ← position
  match ← peek with
  | some (.name word) =>
    match typeOf? word bound with
    | some rule =>
      discard next
      let (n, ds, body) ← rule
      let extension : TypeExtension := ⟨p, n, ds, body⟩
      if extension.isEmpty then failAt p else return .extension extension
    | none => fail
  | _ => fail

/-- The definition of a type or a directive, behind its description. -/
def describedDefinition (description : Option String) (bound : Nat) : Grammar SchemaDefinition := do
  let p ← position
  match ← peek with
  | some (.name "directive") =>
    discard next
    directiveDefinition bound
  | some (.name word) =>
    match typeOf? word bound with
    | some rule =>
      discard next
      let (n, ds, body) ← rule
      return .type ⟨p, description, n, ds, body⟩
    | none => fail
  | _ => fail

/-- A definition of a schema document. -/
def schemaDefinition (bound : Nat) : Grammar SchemaDefinition := do
  let p ← position
  match ← peek with
  | some (.string _) => describedDefinition (← description) bound
  | some (.name "schema") => discard next; rootTypes p bound
  | some (.name "extend") => discard next; typeExtension bound
  | _ => describedDefinition none bound

end Grammar

/-- **The definitions of a schema document**, or the position where its text
does not fit the grammar. -/
def parseSchema (text : List Char) : Except Position (List SchemaDefinition) :=
  Grammar.parse (fun bound => Grammar.document (Grammar.schemaDefinition bound) bound) text

end SelectionModel
