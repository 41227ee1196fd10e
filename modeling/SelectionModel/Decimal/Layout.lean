import SelectionModel.Decimal.Shortest

/-!
# Decimal text of doubles

Two ways to write the shortest digits of a double: messages write every double
positionally, while JSON turns to an exponent for very large and very small
numbers and keeps a fraction on whole ones.
-/

namespace SelectionModel.Decimal

/-- Decisions of a number format. -/
structure Layout where
  /-- Which of two decimals that are as near to the double is written. -/
  tie : Binary64.Tie
  /-- Least and greatest number of places before the point that are written
  without an exponent; `none` for no bound. -/
  positional : Option (Int × Int)
  /-- Whether a whole number ends in `.0`. -/
  keepFraction : Bool
  infinity : String

/-- Messages round a half up, never use an exponent, and give whole numbers no
fraction. -/
def Layout.plain : Layout := ⟨.up, none, false, "inf"⟩

/-- JSON text rounds a half to the even digit, has up to 16 places before the
point and up to 5 zeros after it, writes an exponent otherwise, and has no
infinity. -/
def Layout.json : Layout := ⟨.even, some (-4, 16), true, "null"⟩

/-- Digits with the decimal point after `places` of them. -/
def positional (layout : Layout) (digits : List Char) (places : Int) : List Char :=
  let length : Int := digits.length
  if length ≤ places then
    digits ++ List.replicate (places - length).toNat '0' ++
      (if layout.keepFraction then ['.', '0'] else [])
  else if 0 < places then
    digits.take places.toNat ++ ['.'] ++ digits.drop places.toNat
  else ['0', '.'] ++ List.replicate (-places).toNat '0' ++ digits

/-- Digits with a point after the first one, and an exponent with its sign. -/
def exponential (digits : List Char) (places : Int) : List Char :=
  let fraction := digits.drop 1
  let exponent := places - 1
  digits.take 1 ++ (if fraction.isEmpty then [] else '.' :: fraction) ++
    ['e', if exponent < 0 then '-' else '+'] ++ Nat.toDigits 10 exponent.natAbs

/-- The digits of a magnitude laid out. -/
def Scientific.layOut (layout : Layout) (s : Scientific) : List Char :=
  let digits := Nat.toDigits 10 s.digits
  let places := (digits.length : Int) + s.exponent
  match layout.positional with
  | none => positional layout digits places
  | some (least, greatest) =>
    if least ≤ places ∧ places ≤ greatest then positional layout digits places
    else exponential digits places

/-- The text of a double. -/
def Layout.write (layout : Layout) (x : Binary64) : String :=
  let body :=
    if x.isFinite then
      match shortest? layout.tie x with
      | some s => s.layOut layout
      | none => if layout.keepFraction then ['0', '.', '0'] else ['0']
    else layout.infinity.toList
  String.ofList (if x.isNegative then '-' :: body else body)

end SelectionModel.Decimal
