/-!
# Selection keys

A selection key names one path on which a model is reached: the root is an
operation or a fragment, and each further segment a field or a type condition.
A model has one key for every such path.
-/

namespace SelectionModel

/-- What the root of a key is. -/
inductive KeyScope where
  /-- An operation. -/
  | query
  /-- A fragment, or its default implementation. -/
  | fragment
  deriving DecidableEq, Repr, Inhabited

/-- The word for a scope in the text of a key. -/
def KeyScope.word : KeyScope → String
  | .query => "Query"
  | .fragment => "Fragment"

/-- A path to a model. It has a root at least. -/
structure SelectionKey where
  scope : KeyScope
  root : String
  path : List String
  deriving DecidableEq, Repr, Inhabited

namespace SelectionKey

/-- The key of a root. -/
def ofRoot (scope : KeyScope) (root : String) : SelectionKey := ⟨scope, root, []⟩

/-- All segments, root first. -/
def segments (k : SelectionKey) : List String := k.root :: k.path

/-- The key one step deeper. -/
def child (k : SelectionKey) (segment : String) : SelectionKey :=
  { k with path := k.path ++ [segment] }

/-- The key with another root. -/
def withRoot (k : SelectionKey) (root : String) : SelectionKey := { k with root := root }

/-- Whether another key of the same scope is the start of this one. -/
def startsWith (k start : SelectionKey) : Bool :=
  decide (k.scope = start.scope) && start.segments.isPrefixOf k.segments

/-- The key with `start` at its head replaced; none when it starts otherwise. -/
def rebase? (k start replacement : SelectionKey) : Option SelectionKey :=
  if k.startsWith start then
    some { replacement with path := replacement.path ++ k.segments.drop start.segments.length }
  else none

/-- The key as it is shown. -/
def text (k : SelectionKey) : String :=
  k.scope.word ++ ":" ++ String.intercalate "." k.segments

/-- The order of the scopes: operations come first. -/
def KeyScope.rank : KeyScope → Nat
  | .query => 0
  | .fragment => 1

/-- The order of segments: by the first that differs, a shorter list before a longer one. -/
def compareSegments : List String → List String → Ordering
  | [], [] => .eq
  | [], _ :: _ => .lt
  | _ :: _, [] => .gt
  | a :: as, b :: bs => if a < b then .lt else if b < a then .gt else compareSegments as bs

/-- The order of keys: by scope, then by segments. -/
def compare (k l : SelectionKey) : Ordering :=
  (Ord.compare (KeyScope.rank k.scope) (KeyScope.rank l.scope)).then
    (compareSegments k.segments l.segments)

@[simp] theorem segments_child (k : SelectionKey) (s : String) :
    (k.child s).segments = k.segments ++ [s] := rfl

@[simp] theorem root_child (k : SelectionKey) (s : String) : (k.child s).root = k.root := rfl

@[simp] theorem scope_child (k : SelectionKey) (s : String) : (k.child s).scope = k.scope := rfl

/-- A key starts with another one exactly when it continues it. -/
theorem startsWith_iff {k start : SelectionKey} :
    k.startsWith start = true ↔
      k.scope = start.scope ∧ ∃ rest, k.segments = start.segments ++ rest := by
  simp only [startsWith, Bool.and_eq_true, decide_eq_true_eq, List.isPrefixOf_iff_prefix]
  constructor
  · rintro ⟨h, rest, hr⟩; exact ⟨h, rest, hr.symm⟩
  · rintro ⟨h, rest, hr⟩; exact ⟨h, rest, hr.symm⟩

end SelectionKey

end SelectionModel
