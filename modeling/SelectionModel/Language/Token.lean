import SelectionModel.Decimal.Binary64
import SelectionModel.Source.Location
import SelectionModel.Text.Bytes
import SelectionModel.Text.Digits
import SelectionModel.Text.Lines

/-!
# Tokens

The lexical grammar: reading one token at the head of a text. A token comes
with its lexeme, the characters it is made of, so that lexeme and rest make up
the text again.
-/

namespace SelectionModel

/-- A token. Strings are already freed from quotes and escapes. -/
inductive Token where
  | punctuator (c : Char)
  | ellipsis
  | name (s : String)
  | int (i : Int)
  | float (x : Binary64)
  | string (s : String)
  deriving DecidableEq, Repr, Inhabited

namespace Token

/-- A token, its characters, and what follows it. -/
structure Read where
  token : Token
  lexeme : List Char
  rest : List Char

def isPunctuator (c : Char) : Bool :=
  ['(', '[', '\x7b', ')', ']', '\x7d', '!', '$', ':', '=', '@', '|', '&'].contains c

def isNameStart (c : Char) : Bool := c == '_' || c.isAlpha

def isNameChar (c : Char) : Bool := c == '_' || c.isAlphanum

/-! ## Numbers -/

/-- A number runs up to one of these characters. -/
def endsNumber (c : Char) : Bool :=
  [' ', '\n', '\r', '\t', ',', '#', '!', '$', ':', '=', '@', '|', '&', '(', ')', '[', ']', '\x7b',
    '\x7d'].contains c

/-- Whether characters that start with a digit or a minus are an integer: zero,
or digits without a leading zero, of either sign. -/
def isIntegerText (cs : List Char) : Bool :=
  match cs with
  | ['0'] => true
  | ['-', '0'] => true
  | ['-'] => false
  | '0' :: _ => false
  | '-' :: '0' :: _ => false
  | _ :: ds => ds.all Char.isDigit
  | [] => false

/-- Sign and digits of an integer text. -/
def integerParts (cs : List Char) : Bool × List Char :=
  match cs with
  | '-' :: ds => (true, ds)
  | ds => (false, ds)

/-- The value of an integer text that fits 64 bits. -/
def integerValue? (cs : List Char) : Option Int :=
  let (negative, ds) := integerParts cs
  let i : Int := if negative then -(Text.digitsValue ds : Int) else Text.digitsValue ds
  if -0x8000000000000000 ≤ i ∧ i < 0x8000000000000000 then some i else none

/-- The value of the characters behind `e`: they start with a sign or one of the
digits from 1 to 8, go on with digits, and hold at least one digit. -/
def exponentValue? (cs : List Char) : Option Int :=
  match cs with
  | '-' :: ds =>
    if ds.all Char.isDigit && !ds.isEmpty then some (-(Text.digitsValue ds : Int)) else none
  | '+' :: ds => if ds.all Char.isDigit && !ds.isEmpty then some (Text.digitsValue ds) else none
  | d :: ds =>
    if '1' ≤ d ∧ d ≤ '8' ∧ ds.all Char.isDigit = true then some (Text.digitsValue (d :: ds))
    else none
  | [] => none

/-- Splits a list before the last element that satisfies a test. -/
def splitLast? (p : Char → Bool) (cs : List Char) : Option (List Char × List Char) :=
  let (after, before) := cs.reverse.span fun c => !p c
  match before with
  | [] => none
  | _ :: before => some (before.reverse, after.reverse)

/-- The double of an integer text, the digits of a fraction, and an exponent. -/
def floatValue? (whole fraction : List Char) (exponent : Int) : Option Binary64 :=
  if isIntegerText whole then
    let (negative, ds) := integerParts whole
    some (Binary64.ofDecimal negative (Text.digitsValue (ds ++ fraction))
      (exponent - fraction.length))
  else none

/-- The value of a number with a fraction, an exponent or both. -/
def float? (cs : List Char) : Option Binary64 :=
  let isExponent := fun c => c == 'e' || c == 'E'
  let isPoint := fun c => c == '.'
  let isFraction := fun ds : List Char => ds.all Char.isDigit && !ds.isEmpty
  match splitLast? isExponent cs with
  | some (mantissa, exponent) =>
    if exponent.any isPoint then none
    else
      match exponentValue? exponent with
      | none => none
      | some e =>
        match splitLast? isPoint mantissa with
        | some (whole, fraction) =>
          if isFraction fraction then floatValue? whole fraction e else none
        | none => floatValue? mantissa [] e
  | none =>
    match splitLast? isPoint cs with
    | some (whole, fraction) => if isFraction fraction then floatValue? whole fraction 0 else none
    | none => none

/-- The token of a number's characters. -/
def ofNumber? (cs : List Char) : Option Token :=
  if cs.any fun c => c == '.' || c == 'e' || c == 'E' then (float? cs).map .float
  else if isIntegerText cs then (integerValue? cs).map .int
  else none

/-! ## Strings -/

/-- The characters up to the quote that ends a string and those behind it. A
backslash keeps the next character from ending the string; a line break does not. -/
def stringBody? (escaped : Bool) : List Char → Option (List Char × List Char)
  | [] => none
  | c :: cs =>
    if c = '\n' then none
    else if c = '"' ∧ escaped = false then some ([], cs)
    else (stringBody? (c = '\\' && !escaped) cs).map fun (body, rest) => (c :: body, rest)

/-- The character of the four characters behind `\u`. The first may be a plus;
half a pair is no character. -/
def unicodeEscape? (cs : List Char) : Option Char :=
  let digits := match cs with
    | '+' :: ds => ds
    | ds => ds
  match Text.hexNumber? digits with
  | some n => if 0xD800 ≤ n ∧ n < 0xE000 then none else some (Char.ofNat n)
  | none => none

/-- The character that an escape of one letter stands for. -/
def simpleEscape? (c : Char) : Option Char :=
  if c = '"' ∨ c = '\\' ∨ c = '/' then some c
  else if c = 'b' then some '\x10'
  else if c = 'f' then some '\x0c'
  else if c = 'n' then some '\n'
  else if c = 'r' then some '\r'
  else if c = 't' then some '\t'
  else none

/-- The characters that the body of a string stands for. -/
def unescape? : List Char → Option (List Char)
  | [] => some []
  | '\\' :: 'u' :: a :: b :: c :: d :: cs =>
    (unicodeEscape? [a, b, c, d]).bind fun e => (unescape? cs).map (e :: ·)
  | '\\' :: e :: cs => (simpleEscape? e).bind fun e => (unescape? cs).map (e :: ·)
  | c :: cs => (unescape? cs).map (c :: ·)

/-- The characters up to the three quotes that end a block string and those
behind them. Three quotes behind a backslash do not end it. -/
def blockBody? (skip : Nat) (escaped : Bool) : List Char → Option (List Char × List Char)
  | [] => none
  | c :: cs =>
    let go := fun skip escaped =>
      (blockBody? skip escaped cs).map fun (body, rest) => (c :: body, rest)
    match skip with
    | skip + 1 => go skip false
    | 0 =>
      if ['"', '"', '"'].isPrefixOf (c :: cs) then
        if escaped then go 2 false else some ([], cs.drop 2)
      else go 0 (c = '\\')

/-- The number of bytes of blanks at the start of a line; none for a blank line. -/
def indentOf? (line : List Char) : Option Nat :=
  if line.all Text.isBlank then none
  else some (Text.byteLength (line.takeWhile Text.isBlank))

/-- The indentation that all lines have in common, blank ones and the first
one left aside. -/
def commonIndent? (lines : List (List Char)) : Option Nat :=
  ((lines.drop 1).filterMap indentOf?).min?

/-- Cuts a number of bytes off a line that has as many. -/
def cutIndent (indent : Nat) (line : List Char) : List Char :=
  match line with
  | [] => []
  | c :: cs => if c.utf8Size ≤ indent then cutIndent (indent - c.utf8Size) cs else c :: cs

/-- A line without its indentation, unless the line is shorter. -/
def unindent (indent : Nat) (line : List Char) : List Char :=
  if indent ≤ Text.byteLength line then cutIndent indent line else line

/-- The value of a block string: its lines without the indentation they have in
common, and without the blank lines at both ends. The first line keeps its blanks. -/
def blockValue (body : List Char) : List Char :=
  let lines := Text.lines body
  let unindented := match commonIndent? lines with
    | some indent => lines.take 1 ++ (lines.drop 1).map (unindent indent)
    | none => lines
  -- cutting a line leaves it blank or not blank, as it was
  let kept := Text.dropAround (fun line => line.all Text.isBlank) unindented
  List.intercalate ['\n'] (kept.map (Text.replaceAll ['\\', '"', '"', '"'] ['"', '"', '"']))

/-! ## One token -/

/-- Reads a string or a block string from behind its first quote. -/
def readString? (cs : List Char) : Option Read :=
  match cs with
  | '"' :: '"' :: cs =>
    (blockBody? 0 false cs).map fun (body, rest) =>
      ⟨.string (String.ofList (blockValue body)), ['"', '"', '"'] ++ body ++ ['"', '"', '"'], rest⟩
  | cs =>
    (stringBody? false cs).bind fun (body, rest) =>
      (unescape? body).map fun value =>
        ⟨.string (String.ofList value), ['"'] ++ body ++ ['"'], rest⟩

/-- **Reads the token at the head of a text.** None when no token starts there. -/
def read? (c : Char) (cs : List Char) : Option Read :=
  if isPunctuator c then some ⟨.punctuator c, [c], cs⟩
  else if c = '.' then
    match cs with
    | '.' :: '.' :: rest => some ⟨.ellipsis, ['.', '.', '.'], rest⟩
    | _ => none
  else if isNameStart c then
    let (body, rest) := cs.span isNameChar
    some ⟨.name (String.ofList (c :: body)), c :: body, rest⟩
  else if c = '-' ∨ c.isDigit = true then
    let (body, rest) := cs.span fun c => !endsNumber c
    (ofNumber? (c :: body)).map fun token => ⟨token, c :: body, rest⟩
  else if c = '"' then readString? cs
  else none

end Token

end SelectionModel
