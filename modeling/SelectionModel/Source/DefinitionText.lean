import SelectionModel.Text.Bytes

/-!
# The text of a definition

A definition ends with the brace that closes its selection set. A scan from its
first byte finds that brace without parsing: it counts braces, and passes over
those in strings, in comments and between parentheses.
-/

namespace SelectionModel

namespace DefinitionText

/-- What the scan is inside of. -/
inductive Mode where
  | code
  | comment
  | string
  | blockString
  deriving DecidableEq, Repr

/-- Three quotes, which begin and end a block string. -/
def tripleQuote : List Char := ['"', '"', '"']

/-- Reads up to the brace that closes the first pair of braces. `skip`
characters are the rest of a delimiter or an escape that was just read;
`braces` and `parens` count what is open. -/
def scan (mode : Mode) (skip braces parens : Nat) : List Char → Option (List Char)
  | [] => none
  | c :: cs =>
    match skip with
    | skip + 1 => (scan mode skip braces parens cs).map (c :: ·)
    | 0 =>
      match mode with
      | .comment => (scan (if c = '\n' then .code else .comment) 0 braces parens cs).map (c :: ·)
      | .string =>
        if c = '\n' then none
        else if c = '\\' then (scan .string 1 braces parens cs).map (c :: ·)
        else (scan (if c = '"' then .code else .string) 0 braces parens cs).map (c :: ·)
      | .blockString =>
        if ('\\' :: tripleQuote).isPrefixOf (c :: cs) then
          (scan .blockString 3 braces parens cs).map (c :: ·)
        else if tripleQuote.isPrefixOf (c :: cs) then (scan .code 2 braces parens cs).map (c :: ·)
        else (scan .blockString 0 braces parens cs).map (c :: ·)
      | .code =>
        if c = '#' then (scan .comment 0 braces parens cs).map (c :: ·)
        else if tripleQuote.isPrefixOf (c :: cs) then
          (scan .blockString 2 braces parens cs).map (c :: ·)
        else if c = '"' then (scan .string 0 braces parens cs).map (c :: ·)
        else if c = '(' then (scan .code 0 braces (parens + 1) cs).map (c :: ·)
        else if c = ')' then (scan .code 0 braces (parens - 1) cs).map (c :: ·)
        else if c = '\x7b' ∧ parens = 0 then (scan .code 0 (braces + 1) parens cs).map (c :: ·)
        else if c = '\x7d' ∧ parens = 0 then
          match braces with
          | 0 => none
          | 1 => some [c]
          | braces + 2 => (scan .code 0 (braces + 1) parens cs).map (c :: ·)
        else (scan .code 0 braces parens cs).map (c :: ·)

end DefinitionText

/-- The text from a byte offset through the brace that closes the first pair of
braces found there; none when the offset is no character's or no such brace follows. -/
def definitionText? (content : List Char) (start : Nat) : Option (List Char) :=
  (Text.dropBytes start content).bind (DefinitionText.scan .code 0 0 0)

end SelectionModel
