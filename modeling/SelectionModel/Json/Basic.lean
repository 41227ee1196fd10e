import SelectionModel.Decimal.Binary64
import SelectionModel.Entries

/-!
# JSON values

Objects keep the order of their members, and integers are told apart from
other numbers.
-/

namespace SelectionModel

/-- A JSON value. -/
inductive Json where
  | null
  | bool (b : Bool)
  | int (i : Int)
  | float (x : Binary64)
  | string (s : String)
  | array (items : List Json)
  | object (members : List (String × Json))
  deriving Inhabited

namespace Json

/-- The member of an object; none when there is no such member or no object. -/
def get? (name : String) : Json → Option Json
  | .object members => members.lookup name
  | _ => none

mutual

/-- How deep a value is nested. -/
def depth : Json → Nat
  | .array items => itemsDepth items + 1
  | .object members => membersDepth members + 1
  | _ => 1

/-- The depth of the deepest of some items. -/
def itemsDepth : List Json → Nat
  | [] => 0
  | j :: js => max j.depth (itemsDepth js)

/-- The depth of the deepest value of some members. -/
def membersDepth : List (String × Json) → Nat
  | [] => 0
  | (_, j) :: js => max j.depth (membersDepth js)

end

/-- An optional text, written as null when absent. -/
def ofOption (s : Option String) : Json :=
  match s with
  | some s => .string s
  | none => .null

end Json

end SelectionModel
