/-!
# Reading UTF-8

Bytes are read as UTF-8 one character at a time. A failure says where the
longest readable start of the bytes ends and how many of the next bytes cannot
belong to a character, or that the bytes stop in the middle of one.
-/

namespace SelectionModel.Text

/-- Why bytes are not UTF-8. -/
structure Utf8Error where
  /-- The number of bytes before the fault. -/
  validUpTo : Nat
  /-- How many bytes are at fault; none when the input ends inside a character. -/
  invalidLength : Option Nat
  deriving DecidableEq, Repr

def Utf8Error.message (e : Utf8Error) : String :=
  match e.invalidLength with
  | some n =>
    "invalid utf-8 sequence of " ++ toString n ++ " bytes from index " ++ toString e.validUpTo
  | none => "incomplete utf-8 byte sequence from index " ++ toString e.validUpTo

/-- The outcome of reading one character at the head of the bytes. -/
inductive Utf8Step where
  | char (c : Char) (length : Nat)
  | invalid (length : Nat)
  | incomplete

/-- The number of bytes of a character and the bounds of its second byte, from
its first byte. -/
def leadByte (b : Nat) : Option (Nat × Nat × Nat) :=
  if b < 0x80 then some (1, 0, 0)
  else if 0xC2 ≤ b ∧ b ≤ 0xDF then some (2, 0x80, 0xBF)
  else if b = 0xE0 then some (3, 0xA0, 0xBF)
  else if b = 0xED then some (3, 0x80, 0x9F)
  else if 0xE1 ≤ b ∧ b ≤ 0xEF then some (3, 0x80, 0xBF)
  else if b = 0xF0 then some (4, 0x90, 0xBF)
  else if 0xF1 ≤ b ∧ b ≤ 0xF3 then some (4, 0x80, 0xBF)
  else if b = 0xF4 then some (4, 0x80, 0x8F)
  else none

/-- Reads the continuation bytes of a character of `length` bytes, `seen` of
which were read; `value` holds their bits, and the next byte lies between `low`
and `high`. -/
def continuation (length seen value low high : Nat) : List UInt8 → Utf8Step
  | [] => if seen = length then .char (Char.ofNat value) length else .incomplete
  | b :: bs =>
    if seen = length then .char (Char.ofNat value) length
    else if low ≤ b.toNat ∧ b.toNat ≤ high then
      continuation length (seen + 1) (value * 64 + b.toNat % 64) 0x80 0xBF bs
    else .invalid seen

/-- Reads the character at the head of the bytes. -/
def Utf8Step.ofBytes (first : UInt8) (rest : List UInt8) : Utf8Step :=
  match leadByte first.toNat with
  | none => .invalid 1
  | some (1, _, _) => .char (Char.ofNat first.toNat) 1
  | some (length, low, high) =>
    continuation length 1 (first.toNat % 1 <<< (7 - length)) low high rest

/-- Reads bytes from an index on; `skip` bytes belong to the character before. -/
def decodeUtf8From (index skip : Nat) : List UInt8 → Except Utf8Error (List Char)
  | [] => .ok []
  | b :: bs =>
    match skip with
    | skip + 1 => decodeUtf8From (index + 1) skip bs
    | 0 =>
      match Utf8Step.ofBytes b bs with
      | .char c length => (decodeUtf8From (index + 1) (length - 1) bs).map (c :: ·)
      | .invalid length => .error ⟨index, some length⟩
      | .incomplete => .error ⟨index, none⟩

/-- The characters that bytes spell in UTF-8. -/
def decodeUtf8 (bytes : List UInt8) : Except Utf8Error (List Char) := decodeUtf8From 0 0 bytes

end SelectionModel.Text
