import SelectionModel.Json.Basic
import SelectionModel.Text.Digits

/-!
# Reading JSON text

A reader of JSON text. Each function takes the characters that are left and
gives back those it did not use; a bound on the number of steps, no smaller
than the length of the text, is passed along.
-/

namespace SelectionModel.Json

/-- Drops the white space of JSON. -/
def skipSpace (cs : List Char) : List Char :=
  cs.dropWhile fun c => c = ' ' || c = '\n' || c = '\r' || c = '\t'

/-- Reads four hexadecimal digits. -/
def readUnit? : List Char → Option (Nat × List Char)
  | a :: b :: c :: d :: rest =>
    match Text.hexValue? a, Text.hexValue? b, Text.hexValue? c, Text.hexValue? d with
    | some a, some b, some c, some d => some (((a * 16 + b) * 16 + c) * 16 + d, rest)
    | _, _, _, _ => none
  | _ => none

/-- Reads the code of an escape `\u`: a code unit, or two that form a pair. -/
def readCode? (cs : List Char) : Option (Char × List Char) :=
  match readUnit? cs with
  | none => none
  | some (high, rest) =>
    if 0xD800 ≤ high ∧ high < 0xDC00 then
      match rest with
      | '\\' :: 'u' :: rest' =>
        match readUnit? rest' with
        | some (low, rest'') =>
          if 0xDC00 ≤ low ∧ low < 0xE000 then
            some (Char.ofNat (0x10000 + (high - 0xD800) * 0x400 + (low - 0xDC00)), rest'')
          else none
        | none => none
      | _ => none
    else if 0xDC00 ≤ high ∧ high < 0xE000 then none
    else some (Char.ofNat high, rest)

/-- The character that an escape of one letter stands for. -/
def simpleEscape? (c : Char) : Option Char :=
  if c = '"' ∨ c = '\\' ∨ c = '/' then some c
  else if c = 'b' then some '\x08'
  else if c = 'f' then some '\x0c'
  else if c = 'n' then some '\n'
  else if c = 'r' then some '\r'
  else if c = 't' then some '\t'
  else none

/-- Reads a string from behind its opening quote; `done` holds what was read,
last character first. -/
def readString? : Nat → List Char → List Char → Option (String × List Char)
  | 0, _, _ => none
  | _ + 1, _, [] => none
  | fuel + 1, done, c :: cs =>
    if c = '"' then some (String.ofList done.reverse, cs)
    else if c = '\\' then
      match cs with
      | 'u' :: rest =>
        match readCode? rest with
        | some (c, rest) => readString? fuel (c :: done) rest
        | none => none
      | e :: rest =>
        match simpleEscape? e with
        | some c => readString? fuel (c :: done) rest
        | none => none
      | [] => none
    else if c.toNat < 0x20 then none
    else readString? fuel (c :: done) cs

/-- Reads one or more digits. -/
def readDigits? (cs : List Char) : Option (List Char × List Char) :=
  let (ds, rest) := cs.span Char.isDigit
  if ds.isEmpty then none else some (ds, rest)

/-- Reads the exponent of a number, if there is one. -/
def readExponent? (cs : List Char) : Option (Option Int × List Char) :=
  match cs with
  | c :: rest =>
    if c = 'e' ∨ c = 'E' then
      match rest with
      | '-' :: rest => (readDigits? rest).map fun (ds, rest) =>
        (some (-(Text.digitsValue ds : Int)), rest)
      | '+' :: rest => (readDigits? rest).map fun (ds, rest) =>
        (some (Text.digitsValue ds : Int), rest)
      | rest => (readDigits? rest).map fun (ds, rest) =>
        (some (Text.digitsValue ds : Int), rest)
    else some (none, cs)
  | [] => some (none, cs)

/-- Reads the fraction of a number, if there is one. -/
def readFraction? (cs : List Char) : Option (Option (List Char) × List Char) :=
  match cs with
  | '.' :: rest => (readDigits? rest).map fun (ds, rest) => (some ds, rest)
  | _ => some (none, cs)

/-- An integer literal is an integer as long as it fits 64 bits. -/
def integer (negative : Bool) (n : Nat) : Json :=
  if negative then
    if 0 < n ∧ n ≤ 0x8000000000000000 then .int (-(n : Int))
    else .float (Binary64.ofDecimal true n 0)
  else if n < 0x10000000000000000 then .int n else .float (Binary64.ofDecimal false n 0)

/-- Reads a number from behind its sign. -/
def readNumber? (negative : Bool) (cs : List Char) : Option (Json × List Char) := do
  let (whole, rest) ← readDigits? cs
  if whole.length > 1 ∧ whole.head? = some '0' then none
  else
    let (fraction, rest) ← readFraction? rest
    let (exponent, rest) ← readExponent? rest
    match fraction, exponent with
    | none, none => some (integer negative (Text.digitsValue whole), rest)
    | _, _ =>
      let places := fraction.getD []
      some (.float (Binary64.ofDecimal negative (Text.digitsValue (whole ++ places))
        (exponent.getD 0 - places.length)), rest)

/-- Reads a literal name. -/
def readName? (name : String) (value : Json) (cs : List Char) : Option (Json × List Char) :=
  if name.toList.isPrefixOf cs then some (value, cs.drop name.toList.length) else none

mutual

/-- Reads a value. -/
def readValue? : Nat → List Char → Option (Json × List Char)
  | 0, _ => none
  | fuel + 1, cs =>
    match skipSpace cs with
    | '[' :: rest =>
      match skipSpace rest with
      | ']' :: rest => some (.array [], rest)
      | rest => readItems? fuel [] rest
    | '\x7b' :: rest =>
      match skipSpace rest with
      | '\x7d' :: rest => some (.object [], rest)
      | rest => readMembers? fuel [] rest
    | '"' :: rest => (readString? (rest.length + 1) [] rest).map fun (s, rest) => (.string s, rest)
    | '-' :: rest => readNumber? true rest
    | 't' :: rest => readName? "true" (.bool true) ('t' :: rest)
    | 'f' :: rest => readName? "false" (.bool false) ('f' :: rest)
    | 'n' :: rest => readName? "null" .null ('n' :: rest)
    | rest => readNumber? false rest

/-- Reads the items of an array up to its end; `done` holds those read, last first. -/
def readItems? : Nat → List Json → List Char → Option (Json × List Char)
  | 0, _, _ => none
  | fuel + 1, done, cs =>
    match readValue? fuel cs with
    | none => none
    | some (item, rest) =>
      match skipSpace rest with
      | ',' :: rest => readItems? fuel (item :: done) rest
      | ']' :: rest => some (.array (item :: done).reverse, rest)
      | _ => none

/-- Reads the members of an object up to its end. A repeated name replaces the value. -/
def readMembers? : Nat → List (String × Json) → List Char → Option (Json × List Char)
  | 0, _, _ => none
  | fuel + 1, done, cs =>
    match skipSpace cs with
    | '"' :: rest =>
      match readString? (rest.length + 1) [] rest with
      | none => none
      | some (name, rest) =>
        match skipSpace rest with
        | ':' :: rest =>
          match readValue? fuel rest with
          | none => none
          | some (value, rest) =>
            match skipSpace rest with
            | ',' :: rest => readMembers? fuel (Entries.set name value done) rest
            | '\x7d' :: rest => some (.object (Entries.set name value done), rest)
            | _ => none
        | _ => none
    | _ => none

end

/-- The value that a text spells, if it is JSON. -/
def parse? (s : String) : Option Json :=
  let cs := s.toList
  match readValue? (cs.length + 1) cs with
  | some (j, rest) => if (skipSpace rest).isEmpty then some j else none
  | none => none

end SelectionModel.Json
