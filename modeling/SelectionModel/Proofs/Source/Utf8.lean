import Mathlib.Tactic.SplitIfs
import SelectionModel.Source.ByteScan

/-!
# Characters and bytes

The UTF-8 form of an ASCII character is one byte, and that byte is part of no other
character. So a byte of code that means something to a scan is a character of its own, in
whichever text it stands.

* `eq_of_mem_utf8EncodeChar`: **an ASCII byte is its character.**
* `isPrefixOf_utf8`: whether an ASCII word stands in front is seen from the bytes.
* `slice?_append`: the text between two offsets.
-/

namespace SelectionModel

namespace Text

variable {a c : Char} {cs ds : List Char}

@[simp] theorem utf8_nil : utf8 [] = [] := rfl

@[simp] theorem utf8_cons (c : Char) (cs : List Char) :
    utf8 (c :: cs) = String.utf8EncodeChar c ++ utf8 cs := List.flatMap_cons

@[simp] theorem utf8_append (cs ds : List Char) : utf8 (cs ++ ds) = utf8 cs ++ utf8 ds :=
  List.flatMap_append

/-- The UTF-8 form has as many bytes as are counted. -/
@[simp] theorem length_utf8 (cs : List Char) : (utf8 cs).length = byteLength cs := by
  induction cs with
  | nil => rfl
  | cons c cs ih => rw [utf8_cons, List.length_append, String.length_utf8EncodeChar, ih,
      byteLength_cons]

/-! ## ASCII -/

theorem utf8EncodeChar_of_ascii (ha : a.toNat < 128) :
    String.utf8EncodeChar a = [a.toUInt8] := by
  have hsize : a.utf8Size = 1 := by
    rw [Char.utf8Size_eq_one_iff, UInt32.le_iff_toNat_le]
    exact Nat.le_of_lt_succ ha
  exact String.utf8EncodeChar_eq_singleton hsize

theorem byteLength_of_ascii (ha : a.toNat < 128) : byteLength [a] = 1 := by
  rw [← length_utf8, utf8_cons, utf8EncodeChar_of_ascii ha]
  rfl

/-- A character has a first byte. -/
theorem exists_utf8EncodeChar_eq (c : Char) : ∃ b bs, String.utf8EncodeChar c = b :: bs :=
  List.exists_cons_of_ne_nil String.utf8EncodeChar_ne_nil

/-- The bytes of other characters lie above those of ASCII. -/
theorem le_toNat_of_mem_utf8EncodeChar (hc : 128 ≤ c.toNat) {b : UInt8}
    (hb : b ∈ String.utf8EncodeChar c) : 128 ≤ b.toNat := by
  have hv : ¬ c.val.toNat ≤ 127 := Nat.not_le.2 hc
  simp only [String.utf8EncodeChar, if_neg hv] at hb
  split_ifs at hb
  all_goals
    simp only [List.mem_cons, List.not_mem_nil, or_false] at hb
    rcases hb with rfl | rfl | rfl | rfl
    all_goals
      rw [UInt8.toNat_ofNat']
      omega

theorem toNat_toUInt8 (ha : a.toNat < 128) : a.toUInt8.toNat = a.toNat := by
  have hmod : a.toUInt8.toNat = a.toNat % 256 := rfl
  omega

theorem toUInt8_inj (ha : a.toNat < 128) (hc : c.toNat < 128) (h : a.toUInt8 = c.toUInt8) :
    a = c := by
  have hnat : a.toNat = c.toNat := by rw [← toNat_toUInt8 ha, ← toNat_toUInt8 hc, h]
  rw [← Char.ofNat_toNat a, ← Char.ofNat_toNat c, hnat]

/-- **An ASCII byte is its character.** -/
theorem eq_of_mem_utf8EncodeChar (ha : a.toNat < 128) (h : a.toUInt8 ∈ String.utf8EncodeChar c) :
    c = a := by
  by_cases hc : c.toNat < 128
  · rw [utf8EncodeChar_of_ascii hc, List.mem_singleton] at h
    exact (toUInt8_inj ha hc h).symm
  · have hle := le_toNat_of_mem_utf8EncodeChar (Nat.le_of_not_lt hc) h
    rw [toNat_toUInt8 ha] at hle
    omega

theorem mem_of_mem_utf8 (ha : a.toNat < 128) (h : a.toUInt8 ∈ utf8 cs) : a ∈ cs := by
  obtain ⟨c, hc, hmem⟩ := List.mem_flatMap.1 h
  obtain rfl := eq_of_mem_utf8EncodeChar ha hmem
  exact hc

/-- No ASCII byte stands behind the first byte of a character. -/
theorem notMem_of_utf8EncodeChar_eq_cons (ha : a.toNat < 128) {b : UInt8} {bs : List UInt8}
    (h : String.utf8EncodeChar c = b :: bs) : a.toUInt8 ∉ bs := by
  intro hmem
  obtain rfl := eq_of_mem_utf8EncodeChar ha (h ▸ List.mem_cons_of_mem b hmem)
  rw [utf8EncodeChar_of_ascii ha] at h
  obtain ⟨-, rfl⟩ := List.cons.inj h
  cases hmem

/-- **Whether an ASCII word stands in front is seen from the bytes.** -/
theorem isPrefixOf_utf8 {word : List Char} (hword : ∀ a ∈ word, a.toNat < 128) :
    (utf8 word).isPrefixOf (utf8 cs) = word.isPrefixOf cs := by
  induction word generalizing cs with
  | nil => rfl
  | cons a word ih =>
    obtain ⟨ha, htail⟩ := List.forall_mem_cons.1 hword
    rw [utf8_cons, utf8EncodeChar_of_ascii ha]
    cases cs with
    | nil => rfl
    | cons c cs =>
      by_cases hc : c = a
      · subst hc
        rw [utf8_cons, utf8EncodeChar_of_ascii ha]
        simp [ih htail]
      · obtain ⟨b, bs, hbs⟩ := exists_utf8EncodeChar_eq c
        have hb : (a.toUInt8 == b) = false := by
          rw [beq_eq_false_iff_ne]
          rintro rfl
          exact hc (eq_of_mem_utf8EncodeChar ha (hbs ▸ List.mem_cons_self))
        have ha' : (a == c) = false := beq_false_of_ne (Ne.symm hc)
        rw [utf8_cons, hbs]
        simp [List.isPrefixOf, hb, ha']

/-! ## Slices -/

theorem takeBytes_append (cs ds : List Char) : takeBytes (byteLength cs) (cs ++ ds) = some cs := by
  induction cs with
  | nil => rw [byteLength_nil, takeBytes]
  | cons c cs ih =>
    have hc : 0 < c.utf8Size := Char.utf8Size_pos c
    obtain ⟨n, hn⟩ : ∃ n, byteLength (c :: cs) = n + 1 := ⟨byteLength (c :: cs) - 1, by
      rw [byteLength_cons]; omega⟩
    have hle : n + 1 - c.utf8Size = byteLength cs := by rw [← hn, byteLength_cons]; omega
    have hsize : c.utf8Size ≤ n + 1 := by rw [← hn, byteLength_cons]; omega
    rw [hn, List.cons_append, takeBytes, if_pos hsize, hle, ih, Option.map_some]

/-- **The text between two offsets.** -/
theorem slice?_append (cs text ds : List Char) :
    slice? (byteLength cs) (byteLength cs + byteLength text) (cs ++ (text ++ ds)) = some text := by
  rw [slice?, if_pos (Nat.le_add_right _ _), dropBytes_append, Option.bind_some,
    Nat.add_sub_cancel_left, takeBytes_append]

end Text

end SelectionModel
