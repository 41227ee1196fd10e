/-!
# Lines and blanks

The lines of a text and the characters that count as blank, as the block
strings of the language use them.
-/

namespace SelectionModel.Text

/-- White space in the sense of Unicode's `White_Space` property. -/
def isBlank (c : Char) : Bool :=
  let n := c.toNat
  (9 ≤ n && n ≤ 13) || n == 0x20 || n == 0x85 || n == 0xA0 || n == 0x1680 ||
    (0x2000 ≤ n && n ≤ 0x200A) || n == 0x2028 || n == 0x2029 || n == 0x202F || n == 0x205F ||
    n == 0x3000

/-- A line that was read backwards, without the carriage return in front of the
line break. -/
def brokenLine : List Char → List Char
  | '\r' :: back => back.reverse
  | back => back.reverse

/-- The lines of the text that is left, given the line read so far, backwards. -/
def linesFrom (back : List Char) : List Char → List (List Char)
  | [] => if back.isEmpty then [] else [back.reverse]
  | c :: cs => if c = '\n' then brokenLine back :: linesFrom [] cs else linesFrom (c :: back) cs

/-- The lines of a text. A line ends at `\n` or `\r\n`, which are not part of
it; the last line needs no end, and none follows a final line break. -/
def lines (cs : List Char) : List (List Char) := linesFrom [] cs

/-- Drops the elements at the end that satisfy a test. -/
def dropWhileEnd {α : Type} (p : α → Bool) (l : List α) : List α := (l.reverse.dropWhile p).reverse

/-- Drops the elements at both ends that satisfy a test. -/
def dropAround {α : Type} (p : α → Bool) (l : List α) : List α := dropWhileEnd p (l.dropWhile p)

/-- Drops blanks at both ends. -/
def trim (cs : List Char) : List Char := dropAround isBlank cs

/-- Writes `replacement` for each occurrence of `target` from left to right,
skipping the number of characters of an occurrence that was just replaced. -/
def replaceFrom (target replacement : List Char) : Nat → List Char → List Char
  | _, [] => []
  | skip + 1, _ :: cs => replaceFrom target replacement skip cs
  | 0, c :: cs =>
    if target.isPrefixOf (c :: cs) then
      replacement ++ replaceFrom target replacement (target.length - 1) cs
    else c :: replaceFrom target replacement 0 cs

/-- Writes `replacement` for each occurrence of a non-empty `target`. -/
def replaceAll (target replacement cs : List Char) : List Char :=
  replaceFrom target replacement 0 cs

end SelectionModel.Text
