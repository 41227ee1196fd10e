import SelectionModel.Text.Digits
import SelectionModel.Text.Invisible

/-!
# Quoted paths

Messages show a path between double quotes. Quotes, backslashes and characters
that do not show are escaped.
-/

namespace SelectionModel.Text

/-- One character as it is shown between quotes. A character that does not show
is named by its code, unless it has a letter of its own. -/
def quotedChar (c : Char) : List Char :=
  if c = '"' then ['\\', '"']
  else if c = '\\' then ['\\', '\\']
  else if c = '\n' then ['\\', 'n']
  else if c = '\r' then ['\\', 'r']
  else if c = '\t' then ['\\', 't']
  else if c.toNat = 0 then ['\\', '0']
  else if isInvisible c then ['\\', 'u', '\x7b'] ++ hexDigits c.toNat ++ ['\x7d']
  else [c]

/-- A text between double quotes. -/
def quoted (s : String) : String :=
  String.ofList (['"'] ++ s.toList.flatMap quotedChar ++ ['"'])

end SelectionModel.Text
