import SelectionModel.Decimal.Layout
import SelectionModel.Text.Digits
import SelectionModel.Text.Lines

/-!
# Values

The values of the language: literals, variables, and lists and objects of
values. Messages show a value in the notation of the language.
-/

namespace SelectionModel

/-- An argument, a default or a part of one. -/
inductive Value where
  | variable (name : String)
  | int (i : Int)
  | float (x : Binary64)
  | string (s : String)
  | boolean (b : Bool)
  | null
  | enum (name : String)
  | list (items : List Value)
  | object (entries : List (String × Value))
  deriving Inhabited

namespace Value

/-- The text of a string value. -/
def text? : Value → Option String
  | .string s => some s
  | _ => none

/-- Whether a string fits a block: it has several lines and nothing that needs an escape. -/
def fitsBlock (s : String) : Bool :=
  s.toList.any (· == '\n') &&
    s.toList.all fun c =>
      (c = '\n' || c = '\r' || c = '\t' || 0x20 ≤ c.toNat) && c.toNat ≤ 0xFFFF

/-- One character between quotes. Characters that need an escape give their
code in decimal. -/
def escapedChar (c : Char) : List Char :=
  if c = '\r' then ['\\', 'r']
  else if c = '\n' then ['\\', 'n']
  else if c = '\t' then ['\\', 't']
  else if c = '"' then ['\\', '"']
  else if c = '\\' then ['\\', '\\']
  else if 0x20 ≤ c.toNat ∧ c.toNat ≤ 0xFFFF then [c]
  else ['\\', 'u'] ++ Text.padZeros 4 (Nat.toDigits 10 c.toNat)

/-- One line of a block, indented unless it is blank. -/
def blockLine (line : List Char) : List Char :=
  (if (Text.trim line).isEmpty then []
    else [' ', ' '] ++ Text.replaceAll ['"', '"', '"'] ['\\', '"', '"', '"'] line) ++ ['\n']

/-- A string as messages show it: between quotes, or as a block of lines. -/
def stringText (s : String) : String :=
  if fitsBlock s then
    String.ofList
      (['"', '"', '"', '\n'] ++ (Text.lines s.toList).flatMap blockLine ++ ['"', '"', '"'])
  else String.ofList (['"'] ++ s.toList.flatMap escapedChar ++ ['"'])

mutual

/-- A value in the notation of the language. -/
def notationText : Value → String
  | .variable n => "$" ++ n
  | .int i => toString i
  | .float x => Decimal.Layout.plain.write x
  | .string s => stringText s
  | .boolean b => if b then "true" else "false"
  | .null => "null"
  | .enum n => n
  | .list items => "[" ++ String.intercalate ", " (itemTexts items) ++ "]"
  | .object entries => "\x7b" ++ String.intercalate ", " (entryTexts entries) ++ "\x7d"

def itemTexts : List Value → List String
  | [] => []
  | v :: vs => notationText v :: itemTexts vs

def entryTexts : List (String × Value) → List String
  | [] => []
  | (n, v) :: vs => (n ++ ": " ++ notationText v) :: entryTexts vs

end

end Value

end SelectionModel
