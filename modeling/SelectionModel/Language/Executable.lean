import SelectionModel.Language.Grammar
import SelectionModel.Language.OperationKind

/-!
# Operations and fragments

The definitions of an executable document. A position is that of the first
token, except that of an inline fragment or a spread, which is that of the token
behind the dots.
-/

namespace SelectionModel

/-- A selected field without its own selections. -/
structure FieldHead where
  position : Position
  aliasName : Option String
  name : String
  arguments : List (String × Value)
  directives : List Directive
  deriving Inhabited

/-- The key of a field in a response: its alias if it has one, otherwise its name. -/
def FieldHead.responseName (f : FieldHead) : String := f.aliasName.getD f.name

/-- A selection. -/
inductive Selection where
  | field (head : FieldHead) (selections : List Selection)
  | spread (position : Position) (fragment : String) (directives : List Directive)
  | inlineFragment (position : Position) (typeCondition : Option String)
      (directives : List Directive) (selections : List Selection)
  deriving Inhabited

mutual

/-- How deep a selection is nested. -/
def Selection.depth : Selection → Nat
  | .field _ selections => selectionsDepth selections + 1
  | .spread _ _ _ => 1
  | .inlineFragment _ _ _ selections => selectionsDepth selections + 1

/-- The depth of the deepest of some selections. -/
def selectionsDepth : List Selection → Nat
  | [] => 0
  | s :: ss => max s.depth (selectionsDepth ss)

end

/-- A variable that an operation declares. -/
structure VariableDefinition where
  name : String
  type : TypeRef
  default : Option Value
  deriving Inhabited

/-- An operation. A bare selection set is a query without a keyword. -/
structure OperationDefinition where
  position : Position
  keyword : Option OperationKind
  name : Option String
  variableDefinitions : List VariableDefinition
  selections : List Selection
  deriving Inhabited

def OperationDefinition.kind (d : OperationDefinition) : OperationKind := d.keyword.getD .query

/-- A fragment definition. -/
structure FragmentDefinition where
  position : Position
  name : String
  typeCondition : String
  selections : List Selection
  deriving Inhabited

/-- A definition of an executable document. -/
inductive Definition where
  | operation (d : OperationDefinition)
  | fragment (d : FragmentDefinition)
  deriving Inhabited

def Definition.position : Definition → Position
  | .operation d => d.position
  | .fragment d => d.position

namespace Grammar

/-- Whether a token sits at hand that opens a selection set. -/
def atSelectionSet : Grammar Bool := atPunctuator '\x7b'

mutual

/-- One selection. Behind the dots, `on` always begins a type condition. -/
def selection : Nat → Grammar Selection
  | 0 => fail
  | bound + 1 => do
    let p ← position
    match ← peek with
    | some .ellipsis =>
      discard next
      let p ← position
      if ← skipKeyword "on" then
        let condition ← name
        let ds ← directives bound
        return .inlineFragment p (some condition) ds (← selectionSet bound)
      else
        match ← peek with
        | some (.name s) =>
          discard next
          return .spread p s (← directives bound)
        | _ =>
          let ds ← directives bound
          return .inlineFragment p none ds (← selectionSet bound)
    | some (.name _) =>
      let first ← name
      let second ← if ← skipPunctuator ':' then some <$> name else pure none
      let args ← arguments bound
      let ds ← directives bound
      let head : FieldHead :=
        match second with
        | some n => ⟨p, some first, n, args, ds⟩
        | none => ⟨p, none, first, args, ds⟩
      return .field head (← if ← atSelectionSet then selectionSet bound else pure [])
    | _ => fail

/-- A selection set with its braces. -/
def selectionSet : Nat → Grammar (List Selection)
  | 0 => fail
  | bound + 1 => do
    punctuator '\x7b'
    let s ← selection bound
    return s :: (← selectionsLeft bound)

/-- The other selections of a set up to its closing brace. -/
def selectionsLeft : Nat → Grammar (List Selection)
  | 0 => fail
  | bound + 1 => do
    if ← skipPunctuator '\x7d' then return []
    let s ← selection bound
    return s :: (← selectionsLeft bound)

end

/-- The declaration of a variable. -/
def variableDefinition (bound : Nat) : Grammar VariableDefinition := do
  punctuator '$'
  let n ← name
  punctuator ':'
  let t ← typeRef bound
  let d ← if ← skipPunctuator '=' then some <$> value true bound else pure none
  return ⟨n, t, d⟩

/-- An operation behind its keyword, which stood at a position. -/
def operation (p : Position) (kind : OperationKind) (bound : Nat) : Grammar Definition := do
  let n ← match ← peek with
    | some (.name s) => discard next; pure (some s)
    | _ => pure none
  let vs ← optionalBrackets '(' ')' (variableDefinition bound) bound
  let _ ← directives bound
  return .operation ⟨p, some kind, n, vs, ← selectionSet bound⟩

/-- A fragment definition behind its keyword, which stood at a position. -/
def fragment (p : Position) (bound : Nat) : Grammar Definition := do
  let n ← name
  keyword "on"
  let condition ← name
  let _ ← directives bound
  return .fragment ⟨p, n, condition, ← selectionSet bound⟩

/-- A definition of an executable document. -/
def definition (bound : Nat) : Grammar Definition := do
  let p ← position
  match ← peek with
  | some (.punctuator '\x7b') => return .operation ⟨p, none, none, [], ← selectionSet bound⟩
  | some (.name "query") => discard next; operation p .query bound
  | some (.name "mutation") => discard next; operation p .mutation bound
  | some (.name "subscription") => discard next; operation p .subscription bound
  | some (.name "fragment") => discard next; fragment p bound
  | _ => fail

end Grammar

/-- **The definitions of an executable document**, or the position where its
text does not fit the grammar. -/
def parseExecutable (text : List Char) : Except Position (List Definition) :=
  Grammar.parse (fun bound => Grammar.document (Grammar.definition bound) bound) text

end SelectionModel
