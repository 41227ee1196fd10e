import SelectionModel.Language.Executable
import SelectionModel.Lowering.Error
import SelectionModel.Schema.Basic
import SelectionModel.Tree.Field

/-!
# Coercion of arguments

A value that is given for an argument is brought into the form of the
argument's type. A single value stands for a list of itself, an integer for a
floating point number, and a field that an object leaves out for its default.
Variables are taken for any type.
-/

namespace SelectionModel

/-- An integer fits 32 bits. -/
def fitsInt32 (i : Int) : Bool := decide (-0x80000000 ≤ i ∧ i < 0x80000000)

/-- The value in as many one-item lists as the type has. -/
def wrapInLists : TypeRef → Value → Value
  | .named _ _, v => v
  | .list _ inner, v => .list [wrapInLists inner v]

/-- The coercion of one given value, to be told its type. -/
abbrev ValueCoercion := TypeRef → Except CoercionError Value

/-- Coerces the entries of an object to the fields of an input type, in the
order of the fields. -/
def coerceFields (type : String) (given : List (String × ValueCoercion)) :
    List InputValueDefinition → List (String × Value) → Except CoercionError (List (String × Value))
  | [], done => .ok done
  | f :: fs, done =>
    match given.lookup f.name, f.default with
    | some coerce, _ =>
      match coerce f.type with
      | .ok v => coerceFields type given fs (Entries.set f.name v done)
      | .error cause => .error (.inField type f.name cause)
    | none, some v => coerceFields type given fs (Entries.set f.name v done)
    | none, none =>
      if f.type.nullable then coerceFields type given fs done
      else .error (.missingField type f.name)

/-- Coerces an object to an input type. A field that the type does not have is
reported before any other fault. -/
def coerceObject (type : String) (fields : List InputValueDefinition)
    (given : List (String × ValueCoercion)) : Except CoercionError Value :=
  match given.find? fun e => !(fields.any fun f => f.name == e.1) with
  | some (name, _) => .error (.unknownField type name)
  | none => (coerceFields type given fields []).map .object

/-- Coerces a value that is neither null nor a variable to a named type.
`entries` are the coercions of its entries if it is an object. -/
def coerceNamed (schema : Schema) (v : Value) (entries : List (String × ValueCoercion))
    (type : String) : Except CoercionError Value :=
  let mismatch := .error (.mismatch v.notationText type)
  match type with
  | "Int" =>
    match v with
    | .int i => if fitsInt32 i then .ok (.int i) else .error (.outOfRange v.notationText)
    | _ => mismatch
  | "Float" =>
    match v with
    | .float x => .ok (.float x)
    | .int i => .ok (.float (Binary64.ofInt i))
    | _ => mismatch
  | "String" =>
    match v with
    | .string s => .ok (.string s)
    | _ => mismatch
  | "Boolean" =>
    match v with
    | .boolean b => .ok (.boolean b)
    | _ => mismatch
  | "ID" =>
    match v with
    | .string s => .ok (.string s)
    | .int i => .ok (.string (toString i))
    | _ => mismatch
  | _ =>
    match schema.type? type with
    | none => .error (.undefinedType type)
    | some t =>
      match t.body with
      | .scalar => .ok v
      | .enum values =>
        match v with
        | .enum n => if n ∈ values then .ok (.enum n) else mismatch
        | _ => mismatch
      | .inputObject fields =>
        match v with
        | .object _ => coerceObject type fields entries
        | _ => mismatch
      | _ => .error (.notAnInputType type)

mutual

/-- **Coerces a value to a type.** -/
def coerceValue (schema : Schema) : Value → ValueCoercion
  | .variable n, _ => .ok (.variable n)
  | .null, type => if type.nullable then .ok .null else .error (.nullNotAllowed type)
  | .list items, .list _ inner => (coerceItems schema items inner).map .list
  | .object entries, type =>
    (coerceNamed schema (.object entries) (entryCoercions schema entries) type.innermostName).map
      (wrapInLists type)
  | v, type => (coerceNamed schema v [] type.innermostName).map (wrapInLists type)

/-- Coerces the items of a list, up to the first that fails. -/
def coerceItems (schema : Schema) : List Value → TypeRef → Except CoercionError (List Value)
  | [], _ => .ok []
  | v :: vs, type =>
    match coerceValue schema v type with
    | .error e => .error e
    | .ok v => (coerceItems schema vs type).map (v :: ·)

/-- The coercions of the entries of an object. -/
def entryCoercions (schema : Schema) : List (String × Value) → List (String × ValueCoercion)
  | [] => []
  | (n, v) :: rest => (n, coerceValue schema v) :: entryCoercions schema rest

end

/-- Coerces the arguments of a field, in the order in which they are written. -/
def coerceArguments (schema : Schema) (field : FieldDefinition) (location : SourceLocation) :
    List (String × Value) → Except BuildError (List Argument)
  | [] => .ok []
  | (name, v) :: rest =>
    match field.arguments.find? fun a => a.name == name with
    | none => .error (.argumentCoercion name (.unknownArgument field.name) location)
    | some a =>
      match coerceValue schema v a.type with
      | .error e => .error (.argumentCoercion name e location)
      | .ok v => (coerceArguments schema field location rest).map (⟨name, a.type, v⟩ :: ·)

end SelectionModel
