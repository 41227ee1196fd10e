import SelectionModel.Decimal.Binary64

/-!
# The shortest decimal of a double

A double is written with the fewest significant digits that read back as it;
of several decimals of that length the one nearest to its value is taken, and
of two that are as near the one that the number format prefers.
-/

namespace SelectionModel.Decimal

/-- A positive decimal `digits * 10 ^ exponent`. -/
structure Scientific where
  digits : Nat
  exponent : Int
  deriving DecidableEq, Repr

/-- The numbers that a double stands for, in quarters of its last place: they
lie between `low` and `high`, and the ends belong to it exactly if its
significand is even. The last place is `2 ^ exponent`. -/
structure Rounding where
  value : Nat
  low : Nat
  high : Nat
  ends : Bool
  exponent : Int

/-- The numbers that round to a finite double. Below a power of two the next
double is only half as far away. -/
def Rounding.ofBinary64 (x : Binary64) : Rounding :=
  let m := x.significand
  let atPower := m = Binary64.leadingBit ∧ 0 < x.unit
  { value := 4 * m
    low := if atPower then 4 * m - 1 else 4 * m - 2
    high := 4 * m + 2
    ends := m % 2 = 0
    exponent := (x.unit : Int) - 1074 }

/-- A number of quarters of `2 ^ exponent` over `10 ^ grid`, as a quotient. -/
def Rounding.quotient (r : Rounding) (quarters : Nat) (grid : Int) : Nat × Nat :=
  (quarters <<< (r.exponent - 2).toNat * Binary64.powerOfTen (-grid).toNat,
    1 <<< (2 - r.exponent).toNat * Binary64.powerOfTen grid.toNat)

/-- Whether `n * 10 ^ grid` rounds to the double. -/
def Rounding.contains (r : Rounding) (n : Nat) (grid : Int) : Bool :=
  let (low, den) := r.quotient r.low grid
  let (high, _) := r.quotient r.high grid
  if r.ends then low ≤ n * den && n * den ≤ high else low < n * den && n * den < high

/-- The decimal of the grid `10 ^ grid` that is nearest to the value, of those
two next to the value that round to the double. -/
def Rounding.onGrid? (r : Rounding) (tie : Binary64.Tie) (grid : Int) : Option Nat :=
  let (num, den) := r.quotient r.value grid
  let below := num / den
  let nearest := Binary64.roundDiv tie num den
  let other := if nearest = below then below + 1 else below
  if 0 < nearest ∧ r.contains nearest grid then some nearest
  else if 0 < other ∧ r.contains other grid then some other
  else none

/-- The number of digits before the decimal point of `num / den`, which is not
positive for small quotients: the least `k` with `num / den < 10 ^ k`, found
from a `start` that is too large by at most `fuel`. -/
def places (num den : Nat) (start : Int) : Nat → Int
  | 0 => start
  | fuel + 1 =>
    let k := start - 1
    if num * Binary64.powerOfTen (-k).toNat < den * Binary64.powerOfTen k.toNat then
      places num den k fuel
    else start

/-- The first hit on the grids of `fuel` more digits, from coarse to fine. -/
def Rounding.search (r : Rounding) (tie : Binary64.Tie) (grid : Int) : Nat → Option Scientific
  | 0 => none
  | fuel + 1 =>
    match r.onGrid? tie grid with
    | some n => some ⟨n, grid⟩
    | none => r.search tie (grid - 1) fuel

/-- Moves the zeros at the end of the digits into the exponent. -/
def Scientific.normalizeWith (s : Scientific) : Nat → Scientific
  | 0 => s
  | fuel + 1 =>
    if s.digits % 10 = 0 then Scientific.normalizeWith ⟨s.digits / 10, s.exponent + 1⟩ fuel else s

/-- The decimal without zeros at the end of its digits. -/
def Scientific.normalize (s : Scientific) : Scientific :=
  s.normalizeWith (Nat.toDigits 10 s.digits).length

/-- **The shortest decimal that reads back as the magnitude of a finite double**;
none for zero. Seventeen digits always suffice. -/
def shortest? (tie : Binary64.Tie) (x : Binary64) : Option Scientific :=
  let r := Rounding.ofBinary64 x
  if r.value = 0 then none
  else
    let (num, den) := r.quotient r.value 0
    -- `log2` bounds the number of places, as 10 is more than 8 and less than 16
    let scale : Int := (num.log2 : Int) - (den.log2 : Int)
    let start : Int := max (scale / 3) (scale / 4) + 2
    let top := places num den start 400
    (r.search tie (top - 1) 17).map Scientific.normalize

end SelectionModel.Decimal
