/-!
# Binary floating point numbers

The 64-bit binary format of floating point literals, by its bits. A literal is
the double nearest to the decimal that was written, ties going to the even
significand, and infinity beyond the largest one.

A finite double is `significand * 2 ^ (unit - 1074)`.
-/

namespace SelectionModel

/-- A 64-bit binary floating point number. -/
structure Binary64 where
  bits : UInt64
  deriving DecidableEq, Repr, Inhabited

namespace Binary64

/-- The bits as a number. -/
def toNat (x : Binary64) : Nat := x.bits.toNat

/-- The highest bit is the sign. -/
def signBit : Nat := 0x8000000000000000

/-- The highest bit of the significand of a normal double. It is not stored: the
exponent takes its place. -/
def leadingBit : Nat := 0x10000000000000

def isNegative (x : Binary64) : Bool := decide (signBit ≤ x.toNat)

/-- The bits below the sign. -/
def magnitude (x : Binary64) : Nat := x.toNat % signBit

/-- The bits of the magnitude from which on there is no finite double. -/
def infinityBits : Nat := 0x7FF * leadingBit

def isFinite (x : Binary64) : Bool := decide (x.magnitude < infinityBits)

/-- The significand of a finite double. -/
def significand (x : Binary64) : Nat :=
  if x.magnitude < leadingBit then x.magnitude else x.magnitude % leadingBit + leadingBit

/-- The exponent of the last place of a finite double, counted from the least one. -/
def unit (x : Binary64) : Nat := x.magnitude / leadingBit - 1

/-- The double with a sign and a magnitude, infinite when the magnitude is. -/
def ofMagnitude (negative : Bool) (magnitude : Nat) : Binary64 :=
  ⟨UInt64.ofNat ((if negative then signBit else 0) + min magnitude infinityBits)⟩

/-- The neighbour that is taken halfway between two integers. -/
inductive Tie where
  /-- The even one of the two. -/
  | even
  /-- The greater one. -/
  | up
  deriving DecidableEq, Repr

/-- A quotient rounded to the nearest integer. -/
def roundDiv (tie : Tie) (num den : Nat) : Nat :=
  let q := num / den
  let r := num % den
  if 2 * r < den then q
  else if den < 2 * r then q + 1
  else
    match tie with
    | .even => q + q % 2
    | .up => q + 1

/-- The double nearest to `num / den`. With `u` the exponent of its last place,
its magnitude is `u * leadingBit` and the rounded significand: a significand
that rounds up to `2 * leadingBit` carries into the exponent. -/
def ofRatio (negative : Bool) (num den : Nat) : Binary64 :=
  if num = 0 then ofMagnitude negative 0
  else
    -- `num / den` in units of `2 ^ guess` lies between one and four leading bits
    let guess : Int := (num.log2 : Int) - (den.log2 : Int) - 53
    let scaled (e : Int) : Nat × Nat := (num <<< (-e).toNat, den <<< e.toNat)
    let fits := (scaled guess).1 < 2 * leadingBit * (scaled guess).2
    let e := max (if fits then guess else guess + 1) (-1074)
    ofMagnitude negative ((e + 1074).toNat * leadingBit + roundDiv .even (scaled e).1 (scaled e).2)

/-- A power of ten. -/
def powerOfTen (n : Nat) : Nat := Nat.pow 10 n

/-- The double nearest to `digits * 10 ^ exponent`. Exponents that only an
infinite or a vanishing result can have are not worked out. -/
def ofDecimal (negative : Bool) (digits : Nat) (exponent : Int) : Binary64 :=
  if digits = 0 then ofMagnitude negative 0
  else
    let places : Int := ((Nat.toDigits 10 digits).length : Int) + exponent
    if 310 < places then ofMagnitude negative infinityBits
    else if places < -330 then ofMagnitude negative 0
    else ofRatio negative (digits * powerOfTen exponent.toNat) (powerOfTen (-exponent).toNat)

/-- The double nearest to an integer. -/
def ofInt (i : Int) : Binary64 := ofRatio (decide (i < 0)) i.natAbs 1

end Binary64

end SelectionModel
