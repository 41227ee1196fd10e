/-!
# Byte offsets into text

Text is a list of characters, while offsets into it count the bytes of its
UTF-8 form. Here is the measure that relates the two and the cut at an offset.

* `byteLength_append`: byte lengths add up.
* `dropBytes_append`: cutting at the length of the first part leaves the second.
* `eq_append_of_dropBytes`: a cut that succeeds splits the text at that offset.
-/

namespace SelectionModel.Text

/-- The number of bytes of the UTF-8 form. -/
def byteLength : List Char → Nat
  | [] => 0
  | c :: cs => c.utf8Size + byteLength cs

@[simp] theorem byteLength_nil : byteLength [] = 0 := rfl

@[simp] theorem byteLength_cons (c : Char) (cs : List Char) :
    byteLength (c :: cs) = c.utf8Size + byteLength cs := rfl

/-- **Byte lengths add up.** -/
@[simp] theorem byteLength_append (cs ds : List Char) :
    byteLength (cs ++ ds) = byteLength cs + byteLength ds := by
  induction cs with
  | nil => simp
  | cons c cs ih => simp [ih, Nat.add_assoc]

/-- What is left after the first `n` bytes: nothing is returned when the text
is shorter or the offset falls inside a character. -/
def dropBytes : Nat → List Char → Option (List Char)
  | 0, cs => some cs
  | _ + 1, [] => none
  | n + 1, c :: cs => if c.utf8Size ≤ n + 1 then dropBytes (n + 1 - c.utf8Size) cs else none

@[simp] theorem dropBytes_zero (cs : List Char) : dropBytes 0 cs = some cs := by
  cases cs <;> rfl

/-- **A cut at the length of the first part leaves the second.** -/
theorem dropBytes_append (cs ds : List Char) : dropBytes (byteLength cs) (cs ++ ds) = some ds := by
  induction cs with
  | nil => simp
  | cons c cs ih =>
    have hc : 0 < c.utf8Size := Char.utf8Size_pos c
    obtain ⟨n, hn⟩ : ∃ n, byteLength (c :: cs) = n + 1 := ⟨byteLength (c :: cs) - 1, by
      rw [byteLength_cons]; omega⟩
    have hle : n + 1 - c.utf8Size = byteLength cs := by rw [← hn, byteLength_cons]; omega
    have hsize : c.utf8Size ≤ n + 1 := by rw [← hn, byteLength_cons]; omega
    rw [hn, List.cons_append, dropBytes, if_pos hsize, hle, ih]

/-- **A cut that succeeds splits the text at that offset.** -/
theorem eq_append_of_dropBytes {n : Nat} {cs rest : List Char} (h : dropBytes n cs = some rest) :
    ∃ before, cs = before ++ rest ∧ byteLength before = n := by
  induction cs generalizing n with
  | nil =>
    cases n with
    | zero => exact ⟨[], by simp_all [dropBytes], rfl⟩
    | succ n => simp [dropBytes] at h
  | cons c cs ih =>
    cases n with
    | zero => exact ⟨[], by simp_all [dropBytes], rfl⟩
    | succ n =>
      rw [dropBytes] at h
      split at h
      · next hc =>
        obtain ⟨before, rfl, hlen⟩ := ih h
        exact ⟨c :: before, rfl, by rw [byteLength_cons, hlen]; omega⟩
      · simp at h

end SelectionModel.Text
