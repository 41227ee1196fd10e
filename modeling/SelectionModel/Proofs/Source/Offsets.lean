import Mathlib.Data.List.Count
import SelectionModel.Proofs.Source.Positions
import SelectionModel.Proofs.Source.Utf8

/-!
# From positions to offsets and back

The starts of the lines are found among bytes, while columns are walked in characters. The
two fit together, since the byte of a line break is part of no other character: each start
is the end of an initial part of the text, so a line can be cut off there.

* `startsAfter_eq_idxsOf`: the starts are behind the bytes that are line breaks.
* `exists_of_start`: each start lies behind a line break or at the start of the text.
* `offset?_eq_some_iff`: **what the offset of a position is.**
* `line_index_inverts`: positions are inverted, and no other offset is ever returned.
-/

namespace SelectionModel

namespace LineIndex

variable {text : List Char}

/-! ## Line starts -/

/-- **The starts of lines are behind the bytes that are line breaks.** -/
theorem startsAfter_eq_idxsOf (offset : Nat) (text : List Char) :
    startsAfter offset text =
      ((Text.utf8 text).idxsOf '\n'.toUInt8 offset).map (· + 1) := by
  induction text generalizing offset with
  | nil => rfl
  | cons c cs ih =>
    rw [Text.utf8_cons, List.idxsOf_append, List.map_append, String.length_utf8EncodeChar, ← ih,
      startsAfter]
    by_cases hc : c = '\n'
    · subst hc
      rw [if_pos rfl, Text.utf8EncodeChar_of_ascii (by decide)]
      rfl
    · have hnone : (String.utf8EncodeChar c).idxsOf '\n'.toUInt8 offset = [] := by
        rw [List.idxsOf_eq_nil_iff]
        intro b hb
        rw [beq_eq_false_iff_ne]
        rintro rfl
        exact hc (Text.eq_of_mem_utf8EncodeChar (by decide) hb)
      rw [if_neg hc, hnone]
      rfl

/-- **Each start lies behind a line break** or at the start of the text: nothing stands on
the line in front of it, and the lines in front of it are counted. -/
theorem exists_of_start {offset n start : Nat}
    (h : (offset :: startsAfter offset text)[n]? = some start) :
    ∃ before rest, text = before ++ rest ∧ lastLine before = [] ∧ before.count '\n' = n ∧
      start = offset + Text.byteLength before := by
  induction text generalizing offset n with
  | nil =>
    cases n with
    | zero => exact ⟨[], [], rfl, rfl, rfl, (Option.some.inj h).symm⟩
    | succ n => simp [startsAfter] at h
  | cons c cs ih =>
    cases n with
    | zero => exact ⟨[], c :: cs, rfl, rfl, rfl, (Option.some.inj h).symm⟩
    | succ n =>
      rw [List.getElem?_cons_succ] at h
      unfold startsAfter at h
      by_cases hc : c = '\n'
      · rw [if_pos hc] at h
        obtain ⟨before, rest, rfl, hline, hcount, hstart⟩ := ih h
        refine ⟨c :: before, rest, rfl, ?_, ?_, ?_⟩
        · have hbreak : lastLine ([] ++ '\n' :: before) = lastLine before :=
            lastLine_append_break [] before
          rw [hc, ← hline]
          exact hbreak
        · rw [hc, List.count_cons_self, hcount]
        · rw [Text.byteLength_cons]
          omega
      · rw [if_neg hc] at h
        -- the line break is a later one, as the first start behind this character is none
        have hlater : ((offset + c.utf8Size) :: startsAfter (offset + c.utf8Size) cs)[n + 1]? =
            some start := h
        obtain ⟨before, rest, rfl, hline, hcount, hstart⟩ := ih hlater
        have hmem : '\n' ∈ before := by
          apply List.count_pos_iff.1
          omega
        refine ⟨c :: before, rest, rfl, ?_, ?_, ?_⟩
        · have hlater : lastLine ([c] ++ before) = lastLine before := lastLine_append_of_mem hmem
          rw [← hline]
          exact hlater
        · rw [List.count_cons_of_ne hc, hcount]
        · rw [Text.byteLength_cons]
          omega

/-! ## Offsets -/

theorem charOffset?_eq_some {n k : Nat} {cs : List Char} (h : charOffset? n cs = some k) :
    ∃ line c rest, cs = line ++ c :: rest ∧ line.length = n ∧ Text.byteLength line = k := by
  unfold charOffset? at h
  split at h
  · next hn =>
    refine ⟨cs.take n, cs[n], cs.drop (n + 1), ?_, ?_, Option.some.inj h⟩
    · rw [List.cons_getElem_drop_succ, List.take_append_drop]
    · rw [List.length_take]
      omega
  · cases h

/-- **What the offset of a position is**: that of a character which as many characters are in
front of, from the start of the line on, as the column says. These may reach past the line. -/
theorem offset?_eq_some_iff {p : Position} {offset : Nat} :
    (ofText text).offset? text p = some offset ↔
      ∃ before line c rest, text = before ++ (line ++ c :: rest) ∧ lastLine before = [] ∧
        p = ⟨before.count '\n' + 1, line.length + 1⟩ ∧
        offset = Text.byteLength (before ++ line) := by
  constructor
  · intro h
    obtain ⟨_ | line, _ | column⟩ := p
    · cases h
    · cases h
    · cases h
    simp only [offset?, Option.bind_eq_bind, Option.bind_eq_some_iff, Option.some.injEq] at h
    obtain ⟨start, hstart, rest, hdrop, k, hk, rfl⟩ := h
    obtain ⟨before, rest', rfl, hline, hcount, hlength⟩ := exists_of_start hstart
    rw [Nat.zero_add] at hlength
    rw [hlength, Text.dropBytes_append] at hdrop
    obtain rfl := Option.some.inj hdrop
    obtain ⟨front, c, behind, rfl, hfront, hbytes⟩ := charOffset?_eq_some hk
    refine ⟨before, front, c, behind, rfl, hline, ?_, ?_⟩
    · rw [hcount, hfront]
    · rw [Text.byteLength_append, hlength, hbytes]
  · rintro ⟨before, line, c, rest, rfl, hline, rfl, rfl⟩
    obtain ⟨init, hinit, hstart⟩ := exists_start before (line ++ c :: rest) 0
    rw [hline, List.append_nil] at hinit
    rw [Nat.zero_add, ← hinit] at hstart
    have hchar : charOffset? line.length (line ++ c :: rest) = some (Text.byteLength line) := by
      unfold charOffset?
      rw [if_pos (by simp), List.take_left]
    simp only [offset?, ofText, hstart, Text.dropBytes_append, hchar, Option.bind_eq_bind,
      Option.bind_some, Text.byteLength_append]

/-- There is an offset on existing lines and columns only. -/
theorem offset?_eq_none {p : Position}
    (h : p.line = 0 ∨ p.column = 0 ∨ text.count '\n' + 1 < p.line) :
    (ofText text).offset? text p = none := by
  cases ho : (ofText text).offset? text p with
  | none => rfl
  | some offset =>
    obtain ⟨before, line, c, rest, rfl, -, rfl, -⟩ := offset?_eq_some_iff.1 ho
    rw [List.count_append] at h
    simp only at h
    omega

end LineIndex

/-- **The line index inverts positions.** Its starts are those behind the line breaks among
the bytes, and the text can be cut at each of them. The position of a character is taken to
its offset; whatever offset is returned is that of a character; and none is returned for
line 0, for column 0, and for lines past the last. -/
theorem line_index_inverts (text : List Char) :
    (LineIndex.ofText text).starts =
        0 :: ((Text.utf8 text).idxsOf '\n'.toUInt8).map (· + 1) ∧
      (∀ start ∈ (LineIndex.ofText text).starts, ∃ rest, Text.dropBytes start text = some rest) ∧
      (∀ before c after, text = before ++ c :: after →
        (LineIndex.ofText text).offset? text
            ⟨before.count '\n' + 1, (lastLine before).length + 1⟩ =
          some (Text.byteLength before)) ∧
      (∀ p offset, (LineIndex.ofText text).offset? text p = some offset →
        ∃ before c after, text = before ++ c :: after ∧ offset = Text.byteLength before) ∧
      ∀ p : Position, p.line = 0 ∨ p.column = 0 ∨ text.count '\n' + 1 < p.line →
        (LineIndex.ofText text).offset? text p = none := by
  refine ⟨?_, ?_, ?_, ?_, ?_⟩
  · unfold LineIndex.ofText
    rw [LineIndex.startsAfter_eq_idxsOf]
  · intro start hstart
    obtain ⟨n, hn⟩ := List.getElem?_of_mem hstart
    obtain ⟨before, rest, rfl, -, -, hlength⟩ := LineIndex.exists_of_start hn
    rw [Nat.zero_add] at hlength
    rw [hlength]
    exact ⟨rest, Text.dropBytes_append before rest⟩
  · rintro before c after rfl
    exact LineIndex.offset?_behind before c after
  · intro p offset h
    obtain ⟨before, line, c, rest, rfl, -, -, rfl⟩ := LineIndex.offset?_eq_some_iff.1 h
    refine ⟨before ++ line, c, rest, ?_, rfl⟩
    rw [List.append_assoc]
  · intro p h
    exact LineIndex.offset?_eq_none h

/-- The last character of a text of three lines, two of them with characters of more than
one byte: it stands in the second column of the third line, and no line comes behind. -/
theorem sample_line_index :
    (LineIndex.ofText ['é', '\r', '\n', '\n', '✓', 'b']).offset?
        ['é', '\r', '\n', '\n', '✓', 'b'] ⟨3, 2⟩ = some 8 ∧
      (∃ before c after,
        ['é', '\r', '\n', '\n', '✓', 'b'] = before ++ c :: after ∧ 8 = Text.byteLength before) ∧
      (LineIndex.ofText ['é', '\r', '\n', '\n', '✓', 'b']).offset?
        ['é', '\r', '\n', '\n', '✓', 'b'] ⟨4, 1⟩ = none := by
  obtain ⟨-, -, hfind, hinside, hnone⟩ := line_index_inverts ['é', '\r', '\n', '\n', '✓', 'b']
  have hat := hfind ['é', '\r', '\n', '\n', '✓'] 'b' [] rfl
  have hposition : (⟨['é', '\r', '\n', '\n', '✓'].count '\n' + 1,
      (lastLine ['é', '\r', '\n', '\n', '✓']).length + 1⟩ : Position) = ⟨3, 2⟩ := by decide
  have hlength : Text.byteLength ['é', '\r', '\n', '\n', '✓'] = 8 := by decide
  rw [hposition, hlength] at hat
  exact ⟨hat, hinside _ _ hat, hnone ⟨4, 1⟩ (.inr (.inr (by decide)))⟩

end SelectionModel
