import SelectionModel.Source.Location
import SelectionModel.Text.Bytes

/-!
# From positions to byte offsets

A parser reports lines and columns, while a text is cut at byte offsets. The
line index of a text keeps the offset at which each line starts, so that a
position is found by one look-up and a walk along its line.
-/

namespace SelectionModel

/-- The byte offsets at which the lines of a text start. -/
structure LineIndex where
  starts : List Nat
  deriving DecidableEq, Repr

namespace LineIndex

/-- The line starts behind each line break of a text that begins at `offset`. -/
def startsAfter (offset : Nat) : List Char → List Nat
  | [] => []
  | c :: cs =>
    let next := offset + c.utf8Size
    if c = '\n' then next :: startsAfter next cs else startsAfter next cs

/-- The line index of a text. Its first line starts at its first byte. -/
def ofText (text : List Char) : LineIndex := ⟨0 :: startsAfter 0 text⟩

/-- The byte offset of the `n`-th character of a text, counted from zero. -/
def charOffset? (n : Nat) (text : List Char) : Option Nat :=
  if n < text.length then some (Text.byteLength (text.take n)) else none

/-- The byte offset of a position. Columns count characters and may run past
the end of their line, up to the end of the text. -/
def offset? (index : LineIndex) (text : List Char) (p : Position) : Option Nat :=
  match p.line, p.column with
  | line + 1, column + 1 => do
    let start ← index.starts[line]?
    let rest ← Text.dropBytes start text
    let offset ← charOffset? column rest
    some (start + offset)
  | _, _ => none

end LineIndex

end SelectionModel
