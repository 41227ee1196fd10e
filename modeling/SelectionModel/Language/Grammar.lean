import SelectionModel.Entries
import SelectionModel.Language.Lexer
import SelectionModel.Language.TypeRef
import SelectionModel.Language.Value

/-!
# Grammar shared by all documents

A rule of the grammar reads tokens and gives back what is left of them. One
token decides how a rule goes on, so a text that fits no rule fails at the first
token that cannot continue it.

Rules that contain themselves take a bound on their nesting and repetition, for
which twice the number of tokens suffices.
-/

namespace SelectionModel

/-- A directive on a selection or a definition. -/
structure Directive where
  position : Position
  name : String
  arguments : List (String × Value)
  deriving Inhabited

/-- A rule of the grammar. It fails with the position of the token that does not fit. -/
abbrev Grammar (α : Type) := StateT Tokens (Except Position) α

namespace Grammar

variable {α : Type}

/-- The token at hand does not fit. -/
def fail : Grammar α := fun ts => .error ts.position

/-- A definition that started at a position does not make sense. -/
def failAt (p : Position) : Grammar α := fun _ => .error p

/-- The position of the token at hand. -/
def position : Grammar Position := fun ts => .ok (ts.position, ts)

/-- The token at hand, which stays; none at the end. -/
def peek : Grammar (Option Token) := fun ts => .ok (ts.head?, ts)

/-- Takes the token at hand. -/
def next : Grammar Token := fun ts =>
  match ts with
  | .token _ t rest => .ok (t, rest)
  | _ => .error ts.position

/-- Whether the token at hand is a punctuator. -/
def atPunctuator (c : Char) : Grammar Bool := do return (← peek) == some (.punctuator c)

/-- Whether the token at hand is a keyword. -/
def atKeyword (s : String) : Grammar Bool := do return (← peek) == some (.name s)

/-- Whether the token at hand is a name. -/
def atName : Grammar Bool := do
  match ← peek with
  | some (.name _) => return true
  | _ => return false

/-- Takes a punctuator. -/
def punctuator (c : Char) : Grammar Unit := do
  if ← atPunctuator c then discard next else fail

/-- Takes a keyword. -/
def keyword (s : String) : Grammar Unit := do
  if ← atKeyword s then discard next else fail

/-- Takes a name. -/
def name : Grammar String := do
  match ← peek with
  | some (.name s) => discard next; return s
  | _ => fail

/-- Takes a punctuator if it is at hand, and says so. -/
def skipPunctuator (c : Char) : Grammar Bool := do
  if ← atPunctuator c then discard next; return true else return false

/-- Takes a keyword if it is at hand, and says so. -/
def skipKeyword (s : String) : Grammar Bool := do
  if ← atKeyword s then discard next; return true else return false

/-- Repeats a rule as long as a condition on the token at hand holds. -/
def whileAt (more : Grammar Bool) (rule : Grammar α) : Nat → Grammar (List α)
  | 0 => fail
  | bound + 1 => do
    if ← more then
      let a ← rule
      let as ← whileAt more rule bound
      return a :: as
    else return []

/-- Whether a bracket does not close here. -/
def notClosing (c : Char) : Grammar Bool := do return !(← atPunctuator c)

/-- A rule repeated any number of times up to a closing bracket. -/
def listUntil (closing : Char) (rule : Grammar α) (bound : Nat) : Grammar (List α) := do
  let as ← whileAt (notClosing closing) rule bound
  punctuator closing
  return as

/-- A rule repeated at least once up to a closing bracket. -/
def nonemptyUntil (closing : Char) (rule : Grammar α) (bound : Nat) : Grammar (List α) := do
  let a ← rule
  let as ← listUntil closing rule bound
  return a :: as

/-- A rule in brackets, repeated at least once; nothing without the opening bracket. -/
def optionalBrackets (opening closing : Char) (rule : Grammar α) (bound : Nat) :
    Grammar (List α) := do
  if ← skipPunctuator opening then nonemptyUntil closing rule bound else return []

/-- Names behind one separator each. -/
def separatedNames (separator : Char) (bound : Nat) : Grammar (List String) := do
  let first ← name
  let others ← whileAt (atPunctuator separator) (do punctuator separator; name) bound
  return first :: others

/-! ## Values and types -/

mutual

/-- A value. Constants hold no variables at any depth. -/
def value (constant : Bool) : Nat → Grammar Value
  | 0 => fail
  | bound + 1 => do
    match ← peek with
    | some (.int i) => discard next; return .int i
    | some (.float x) => discard next; return .float x
    | some (.string s) => discard next; return .string s
    | some (.name "true") => discard next; return .boolean true
    | some (.name "false") => discard next; return .boolean false
    | some (.name "null") => discard next; return .null
    | some (.name s) => discard next; return .enum s
    | some (.punctuator '$') =>
      if constant then fail
      else
        discard next
        return .variable (← name)
    | some (.punctuator '[') =>
      discard next
      return .list (← items constant bound)
    | some (.punctuator '\x7b') =>
      discard next
      return .object (Entries.sort (← entries constant bound))
    | _ => fail

/-- The items of a list up to its end. -/
def items (constant : Bool) : Nat → Grammar (List Value)
  | 0 => fail
  | bound + 1 => do
    if ← skipPunctuator ']' then return []
    let v ← value constant bound
    let vs ← items constant bound
    return v :: vs

/-- The entries of an object up to its end. -/
def entries (constant : Bool) : Nat → Grammar (List (String × Value))
  | 0 => fail
  | bound + 1 => do
    if ← skipPunctuator '\x7d' then return []
    let n ← name
    punctuator ':'
    let v ← value constant bound
    let vs ← entries constant bound
    return (n, v) :: vs

end

/-- A reference to a type, with an exclamation mark where it excludes null. -/
def typeRef : Nat → Grammar TypeRef
  | 0 => fail
  | bound + 1 => do
    if ← skipPunctuator '[' then
      let inner ← typeRef bound
      punctuator ']'
      return .list (!(← skipPunctuator '!')) inner
    else
      let n ← name
      return .named (!(← skipPunctuator '!')) n

/-- A named argument. -/
def argument (bound : Nat) : Grammar (String × Value) := do
  let n ← name
  punctuator ':'
  return (n, ← value false bound)

/-- Arguments in parentheses, if there are any. -/
def arguments (bound : Nat) : Grammar (List (String × Value)) :=
  optionalBrackets '(' ')' (argument bound) bound

/-- A directive, whose position is that of its `@`. -/
def directive (bound : Nat) : Grammar Directive := do
  let p ← position
  punctuator '@'
  let n ← name
  return ⟨p, n, ← arguments bound⟩

/-- Any number of directives. -/
def directives (bound : Nat) : Grammar (List Directive) :=
  whileAt (atPunctuator '@') (directive bound) bound

/-- A rule repeated at least once up to the end of the text. -/
def document (rule : Grammar α) (bound : Nat) : Grammar (List α) := do
  let a ← rule
  let as ← whileAt (fun ts => .ok (match ts with | .finish _ => false | _ => true, ts)) rule bound
  return a :: as

/-- What a rule makes of a text, or the position where the text does not fit.
A token leads at most into a list and then into an item, so the bound of the
rule is twice the number of tokens. -/
def parse (rule : Nat → Grammar α) (text : List Char) : Except Position α :=
  let ts := Tokens.ofText text
  match rule (2 * ts.length + 2) ts with
  | .ok (a, _) => .ok a
  | .error p => .error p

end Grammar

end SelectionModel
