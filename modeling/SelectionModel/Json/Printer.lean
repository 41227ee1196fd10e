import SelectionModel.Json.Basic
import SelectionModel.Decimal.Layout
import SelectionModel.Text.Digits

/-!
# JSON text

JSON is written on one line, or indented by two spaces with empty arrays and
objects kept on the line.
-/

namespace SelectionModel.Json

/-- One character inside a string. Only quotes, backslashes and control
characters are escaped. -/
def escapedChar (c : Char) : List Char :=
  if c = '"' then ['\\', '"']
  else if c = '\\' then ['\\', '\\']
  else if c = '\n' then ['\\', 'n']
  else if c = '\r' then ['\\', 'r']
  else if c = '\t' then ['\\', 't']
  else if c.toNat = 8 then ['\\', 'b']
  else if c.toNat = 12 then ['\\', 'f']
  else if c.toNat < 0x20 then ['\\', 'u'] ++ Text.padZeros 4 (Text.hexDigits c.toNat)
  else [c]

/-- A text as a JSON string. -/
def quote (s : String) : String :=
  String.ofList (['"'] ++ s.toList.flatMap escapedChar ++ ['"'])

/-- The text of a number or of another value without parts. An infinite number
has no JSON form and is written as null. -/
def scalarText : Json → String
  | .null => "null"
  | .bool b => if b then "true" else "false"
  | .int i => toString i
  | .float x => if x.isFinite then Decimal.Layout.json.write x else "null"
  | .string s => quote s
  | .array _ => "[]"
  | .object _ => "\x7b\x7d"

mutual

/-- A value on one line. -/
def compact : Json → String
  | .array items => "[" ++ String.intercalate "," (compactItems items) ++ "]"
  | .object members => "\x7b" ++ String.intercalate "," (compactMembers members) ++ "\x7d"
  | j => scalarText j

def compactItems : List Json → List String
  | [] => []
  | j :: js => compact j :: compactItems js

def compactMembers : List (String × Json) → List String
  | [] => []
  | (n, j) :: js => (quote n ++ ":" ++ compact j) :: compactMembers js

end

/-- Parts on indented lines of their own between brackets. -/
def block (indent : String) (opening closing : String) (parts : List String) : String :=
  if parts.isEmpty then opening ++ closing
  else
    let inner := indent ++ "  "
    opening ++ "\n" ++ inner ++ String.intercalate (",\n" ++ inner) parts ++
      "\n" ++ indent ++ closing

mutual

/-- A value over several lines, the first of which starts after `indent`. -/
def prettyAt (indent : String) : Json → String
  | .array items => block indent "[" "]" (prettyItems (indent ++ "  ") items)
  | .object members => block indent "\x7b" "\x7d" (prettyMembers (indent ++ "  ") members)
  | j => scalarText j

def prettyItems (indent : String) : List Json → List String
  | [] => []
  | j :: js => prettyAt indent j :: prettyItems indent js

def prettyMembers (indent : String) : List (String × Json) → List String
  | [] => []
  | (n, j) :: js => (quote n ++ ": " ++ prettyAt indent j) :: prettyMembers indent js

end

/-- A value over several lines, indented by two spaces a level. -/
def pretty (j : Json) : String := prettyAt "" j

end SelectionModel.Json
