import SelectionModel.Language.Token

/-!
# Tokens of a text

A text is read into its tokens, each with its position. The tokens end with the
text, or at the first place where no token can be read.

Positions are counted by rules of their own: a tab is eight columns wide, a
carriage return and a byte order mark have no width, and a comment has none
either but starts a new line where it ends.
-/

namespace SelectionModel

/-- The tokens of a text with their positions. -/
inductive Tokens where
  | token (position : Position) (token : Token) (rest : Tokens)
  /-- The text ends here. -/
  | finish (position : Position)
  /-- No token can be read here. -/
  | invalid (position : Position)
  deriving Repr, Inhabited

namespace Tokens

/-- Where the next token stands, or the end. -/
def position : Tokens → Position
  | .token p _ _ => p
  | .finish p => p
  | .invalid p => p

/-- The number of tokens. -/
def length : Tokens → Nat
  | .token _ _ rest => rest.length + 1
  | .finish _ => 0
  | .invalid _ => 0

/-- The first token. -/
def head? : Tokens → Option Token
  | .token _ t _ => some t
  | _ => none

end Tokens

namespace Lexer

/-- How many brackets may be open at once. -/
def openBracketLimit : Nat := 50

/-- The position behind a token. -/
def advance (p : Position) (lexeme : List Char) : Position :=
  let breaks := lexeme.count '\n'
  if breaks = 0 then { p with column := p.column + lexeme.length }
  else ⟨p.line + breaks, (lexeme.reverse.takeWhile (· != '\n')).length + 1⟩

/-- Passes over blanks and comments. -/
def skipIgnored (inComment : Bool) (p : Position) : List Char → Position × List Char
  | [] => (p, [])
  | c :: cs =>
    if inComment then
      if c = '\r' ∨ c = '\n' then skipIgnored false ⟨p.line + 1, 1⟩ cs else skipIgnored true p cs
    else if c = ' ' ∨ c = ',' then skipIgnored false { p with column := p.column + 1 } cs
    else if c = '\t' then skipIgnored false { p with column := p.column + 8 } cs
    else if c = '\r' ∨ c = '\uFEFF' then skipIgnored false p cs
    else if c = '\n' then skipIgnored false ⟨p.line + 1, 1⟩ cs
    else if c = '#' then skipIgnored true p cs
    else (p, c :: cs)

/-- How many brackets may still be opened after a token; none when it opens one too many. -/
def bracketsLeft? (left : Nat) (t : Token) : Option Nat :=
  match t with
  | .punctuator c =>
    if c = '(' ∨ c = '[' ∨ c = '\x7b' then
      match left with
      | 0 => none
      | left + 1 => some left
    else if c = ')' ∨ c = ']' ∨ c = '\x7d' then some (left + 1)
    else some left
  | _ => some left

/-- The tokens of what is left of a text, at most as many as `bound`. -/
def tokensFrom : Nat → Nat → Position → List Char → Tokens
  | 0, _, p, _ => .invalid p
  | bound + 1, left, p, cs =>
    let (p, cs) := skipIgnored false p cs
    match cs with
    | [] => .finish p
    | c :: cs =>
      match Token.read? c cs with
      | none => .invalid p
      | some r =>
        match bracketsLeft? left r.token with
        | none => .invalid p
        | some left => .token p r.token (tokensFrom bound left (advance p r.lexeme) r.rest)

end Lexer

/-- **The tokens of a text.** A text has no more tokens than characters. -/
def Tokens.ofText (text : List Char) : Tokens :=
  Lexer.tokensFrom (text.length + 1) Lexer.openBracketLimit ⟨1, 1⟩ text

end SelectionModel
