import SelectionModel.Proofs.Source.DefinitionTexts
import SelectionModel.Proofs.Source.Utf8

/-!
# Skipping strings byte by byte

A scan over bytes skips a string or a block string by loops of their own. These come to the
end that the text of the string says, and to none if there is none: they jump over escapes,
and the bytes of a character that is not ASCII mean nothing to them.

* `drop_utf8_add`: what stands behind a part of a text, by index.
* `skipString_of_stringRest`, `skipBlockString_of_blockRest`: **a string is skipped up to its
  end.**
* `StringUnclosed`, `BlockUnclosed`: strings without an end.
-/

namespace SelectionModel

namespace ByteScan

open DefinitionText Text

variable {bytes bs suffix : List UInt8} {b : UInt8} {i braces parens : Nat}
  {c : Char} {cs rest : List Char}

/-! ## Reads at an index -/

section Reads

theorem lt_of_drop (h : bytes.drop i = b :: suffix) : i < bytes.length := by
  have hlength := congrArg List.length h
  rw [List.length_drop, List.length_cons] at hlength
  omega

theorem le_of_drop_eq_nil (h : bytes.drop i = []) : bytes.length ≤ i :=
  List.drop_eq_nil_iff.1 h

theorem byteAt_of_drop (h : bytes.drop i = b :: suffix) : byteAt bytes i = .ok b := by
  have hget : bytes[i]? = some b := by
    rw [← Nat.add_zero i, ← List.getElem?_drop, h]
    rfl
  rw [byteAt, hget]

theorem startsWith_of_drop (h : bytes.drop i = b :: suffix) (word : List Char) :
    startsWith bytes i word = .ok ((utf8 word).isPrefixOf (b :: suffix)) := by
  rw [startsWith_eq_ok (lt_of_drop h).le, h]

/-- What stands behind a part of the bytes. -/
theorem drop_add (bs : List UInt8) (h : bytes.drop i = bs ++ suffix) :
    bytes.drop (i + bs.length) = suffix := by
  rw [← List.drop_drop, h, List.drop_left]

theorem drop_utf8_add (cs : List Char) (h : bytes.drop i = utf8 (cs ++ rest)) :
    bytes.drop (i + byteLength cs) = utf8 rest := by
  rw [utf8_append] at h
  rw [← length_utf8]
  exact drop_add (utf8 cs) h

/-- An ASCII character is one byte. -/
theorem drop_of_ascii (hc : c.toNat < 128) (h : bytes.drop i = utf8 (c :: cs)) :
    bytes.drop i = c.toUInt8 :: utf8 cs := by
  rw [h, utf8_cons, utf8EncodeChar_of_ascii hc]
  rfl

end Reads

/-! ## Strings -/

section Strings

/-- Bytes that mean nothing in a string are passed over. -/
theorem skipString_add (h : bytes.drop i = bs ++ suffix) (hslash : '\\'.toUInt8 ∉ bs)
    (hquote : '"'.toUInt8 ∉ bs) (hbreak : '\n'.toUInt8 ∉ bs) :
    skipString bytes i = skipString bytes (i + bs.length) := by
  induction bs generalizing i with
  | nil => rfl
  | cons b bs ih =>
    obtain ⟨hslash', hslash⟩ := not_or.1 (mt List.mem_cons.2 hslash)
    obtain ⟨hquote', hquote⟩ := not_or.1 (mt List.mem_cons.2 hquote)
    obtain ⟨hbreak', hbreak⟩ := not_or.1 (mt List.mem_cons.2 hbreak)
    have hstep : skipString bytes i = skipString bytes (i + 1) := by
      rw [skipString, if_pos (lt_of_drop h), byteAt_of_drop h]
      simp [bind, Except.bind, Ne.symm hslash', Ne.symm hquote', Ne.symm hbreak']
    have hnext : bytes.drop (i + 1) = bs ++ suffix := drop_add [b] h
    rw [hstep, ih hnext hslash hquote hbreak, List.length_cons]
    congr 1
    omega

/-- A character that means nothing in a string is passed over. -/
theorem skipString_char (h : bytes.drop i = utf8 (c :: cs)) (hquote : c ≠ '"')
    (hslash : c ≠ '\\') (hbreak : c ≠ '\n') :
    skipString bytes i = skipString bytes (i + byteLength [c]) := by
  rw [byteLength_cons, byteLength_nil, Nat.add_zero, ← String.length_utf8EncodeChar]
  rw [utf8_cons] at h
  refine skipString_add h ?_ ?_ ?_
  · exact fun hmem => hslash (eq_of_mem_utf8EncodeChar (by decide) hmem)
  · exact fun hmem => hquote (eq_of_mem_utf8EncodeChar (by decide) hmem)
  · exact fun hmem => hbreak (eq_of_mem_utf8EncodeChar (by decide) hmem)

/-- A backslash and the character behind it are passed over. The jump is two bytes long,
and the other bytes of a longer character mean nothing. -/
theorem skipString_escape (h : bytes.drop i = utf8 ('\\' :: c :: cs)) :
    skipString bytes i = skipString bytes (i + byteLength ['\\', c]) := by
  obtain ⟨b, bs, hbs⟩ := exists_utf8EncodeChar_eq c
  have hbytes : bytes.drop i = '\\'.toUInt8 :: b :: (bs ++ utf8 cs) := by
    rw [drop_of_ascii (by decide) h, utf8_cons, hbs]
    rfl
  have hstep : skipString bytes i = skipString bytes (i + 2) := by
    rw [skipString, if_pos (lt_of_drop hbytes), byteAt_of_drop hbytes]
    simp [bind, Except.bind]
  have hnext : bytes.drop (i + 2) = bs ++ utf8 cs :=
    drop_add ['\\'.toUInt8, b] hbytes
  have hsize : byteLength ['\\', c] = 2 + bs.length := by
    rw [← length_utf8, utf8_cons, utf8_cons, hbs, utf8EncodeChar_of_ascii (by decide)]
    simp only [utf8_nil, List.append_nil, List.length_append, List.length_cons, List.length_nil]
    omega
  rw [hstep, skipString_add hnext (notMem_of_utf8EncodeChar_eq_cons (by decide) hbs)
    (notMem_of_utf8EncodeChar_eq_cons (by decide) hbs)
    (notMem_of_utf8EncodeChar_eq_cons (by decide) hbs), hsize, Nat.add_assoc]

/-- **A string is skipped up to its end.** -/
theorem skipString_of_stringRest (h : StringRest rest) (hb : bytes.drop i = utf8 (rest ++ cs)) :
    skipString bytes i = .ok (some (i + byteLength rest)) := by
  induction h generalizing i with
  | close =>
    have hquote := drop_of_ascii (by decide) hb
    rw [skipString, if_pos (lt_of_drop hquote), byteAt_of_drop hquote]
    rfl
  | @escape c rest _ ih =>
    rw [skipString_escape hb, ih (drop_utf8_add ['\\', c] hb), Nat.add_assoc,
      ← byteLength_append]
    rfl
  | @char c rest hquote hslash hbreak _ ih =>
    rw [skipString_char hb hquote hslash hbreak, ih (drop_utf8_add [c] hb),
      Nat.add_assoc, ← byteLength_append]
    rfl

/-- The rest of a text in which a string does not end on its line. -/
inductive StringUnclosed : List Char → Prop where
  | nil : StringUnclosed []
  | newline (cs : List Char) : StringUnclosed ('\n' :: cs)
  | backslash : StringUnclosed ['\\']
  | escape {c : Char} {cs : List Char} : StringUnclosed cs → StringUnclosed ('\\' :: c :: cs)
  | char {c : Char} {cs : List Char} : c ≠ '"' → c ≠ '\\' → c ≠ '\n' → StringUnclosed cs →
    StringUnclosed (c :: cs)

/-- **A string ends or not.** -/
theorem stringRest_or_unclosed (cs : List Char) :
    (∃ rest after, cs = rest ++ after ∧ StringRest rest) ∨ StringUnclosed cs := by
  induction h : cs.length using Nat.strongRecOn generalizing cs with
  | ind n ih =>
    subst h
    match cs with
    | [] => exact .inr .nil
    | c :: cs =>
      by_cases hquote : c = '"'
      · exact .inl ⟨['"'], cs, by rw [hquote]; rfl, .close⟩
      by_cases hbreak : c = '\n'
      · exact .inr (hbreak ▸ .newline cs)
      by_cases hslash : c = '\\'
      · subst hslash
        match cs with
        | [] => exact .inr .backslash
        | d :: cs =>
          have hless : cs.length < ('\\' :: d :: cs).length := Nat.lt_add_of_pos_right Nat.two_pos
          rcases ih cs.length hless cs rfl with ⟨rest, after, rfl, hrest⟩ | hopen
          · exact .inl ⟨'\\' :: d :: rest, after, rfl, .escape hrest⟩
          · exact .inr (.escape hopen)
      · rcases ih cs.length (Nat.lt_succ_self _) cs rfl with ⟨rest, after, rfl, hrest⟩ | hopen
        · exact .inl ⟨c :: rest, after, rfl, .char hquote hslash hbreak hrest⟩
        · exact .inr (.char hquote hslash hbreak hopen)

theorem skipString_of_unclosed (h : StringUnclosed cs) (hb : bytes.drop i = utf8 cs) :
    skipString bytes i = .ok none := by
  induction h generalizing i with
  | nil =>
    rw [skipString, if_neg (Nat.not_lt.2 (le_of_drop_eq_nil hb))]
    rfl
  | newline cs =>
    have hbreak := drop_of_ascii (by decide) hb
    rw [skipString, if_pos (lt_of_drop hbreak), byteAt_of_drop hbreak]
    rfl
  | backslash =>
    -- the jump leads past the end, where the loop stops
    have hslash := drop_of_ascii (by decide) hb
    have hend : bytes.length ≤ i + 1 := le_of_drop_eq_nil (drop_add ['\\'.toUInt8] hslash)
    have hstep : skipString bytes i = skipString bytes (i + 2) := by
      rw [skipString, if_pos (lt_of_drop hslash), byteAt_of_drop hslash]
      simp [bind, Except.bind]
    rw [hstep, skipString, if_neg (by omega)]
    rfl
  | @escape c cs _ ih =>
    rw [skipString_escape hb]
    exact ih (drop_utf8_add ['\\', c] hb)
  | @char c cs hquote hslash hbreak _ ih =>
    rw [skipString_char hb hquote hslash hbreak]
    exact ih (drop_utf8_add [c] hb)

theorem scan_of_stringUnclosed (h : StringUnclosed cs) :
    scan .string 0 braces parens cs = none := by
  induction h with
  | nil => rfl
  | newline cs => simp [scan]
  | backslash => simp [scan]
  | escape _ ih => simp [scan, ih]
  | char hquote hslash hbreak _ ih => simp [scan, hquote, hslash, hbreak, ih]

end Strings

/-! ## Block strings -/

section BlockStrings

theorem tripleQuote_ascii : ∀ a ∈ tripleQuote, a.toNat < 128 := by simp [tripleQuote]

theorem escapedQuotes_ascii : ∀ a ∈ '\\' :: tripleQuote, a.toNat < 128 := by simp [tripleQuote]

/-- Whether three quotes, with or without a backslash before them, stand at an index. -/
theorem startsWith_utf8 {word : List Char} (hword : ∀ a ∈ word, a.toNat < 128)
    (h : bytes.drop i = utf8 (c :: cs)) :
    startsWith bytes i word = .ok (word.isPrefixOf (c :: cs)) := by
  obtain ⟨b, bs, hbs⟩ := exists_utf8EncodeChar_eq c
  have hbytes : utf8 (c :: cs) = b :: (bs ++ utf8 cs) := by
    rw [utf8_cons, hbs]
    rfl
  rw [startsWith_of_drop (h.trans hbytes), ← hbytes, isPrefixOf_utf8 hword]

/-- Where three quotes stand, and what is read there. -/
theorem drop_of_tripleQuote (h : bytes.drop i = utf8 (tripleQuote ++ cs)) :
    bytes.drop i = '"'.toUInt8 :: utf8 ('"' :: '"' :: cs) := drop_of_ascii (by decide) h

theorem startsWith_tripleQuote (h : bytes.drop i = utf8 (tripleQuote ++ cs)) :
    startsWith bytes i tripleQuote = .ok true := by
  have hcons : bytes.drop i = utf8 ('"' :: '"' :: '"' :: cs) := h
  rw [startsWith_utf8 tripleQuote_ascii hcons]
  simp [tripleQuote, List.isPrefixOf]

/-- Bytes that mean nothing in a block string are passed over. -/
theorem skipBlockString_add (h : bytes.drop i = bs ++ suffix) (hslash : '\\'.toUInt8 ∉ bs)
    (hquote : '"'.toUInt8 ∉ bs) :
    skipBlockString bytes i = skipBlockString bytes (i + bs.length) := by
  induction bs generalizing i with
  | nil => rfl
  | cons b bs ih =>
    obtain ⟨hslash', hslash⟩ := not_or.1 (mt List.mem_cons.2 hslash)
    obtain ⟨hquote', hquote⟩ := not_or.1 (mt List.mem_cons.2 hquote)
    have hstep : skipBlockString bytes i = skipBlockString bytes (i + 1) := by
      have hescape : (utf8 ('\\' :: tripleQuote)).isPrefixOf (b :: (bs ++ suffix)) = false := by
        have : ('\\'.toUInt8 == b) = false := beq_false_of_ne hslash'
        rw [utf8_cons, utf8EncodeChar_of_ascii (by decide)]
        simp [List.isPrefixOf, this]
      have hquotes : (utf8 tripleQuote).isPrefixOf (b :: (bs ++ suffix)) = false := by
        have : ('"'.toUInt8 == b) = false := beq_false_of_ne hquote'
        rw [tripleQuote, utf8_cons, utf8EncodeChar_of_ascii (by decide)]
        simp [List.isPrefixOf, this]
      have hescape' := (startsWith_of_drop h _).trans (congrArg Except.ok hescape)
      have hquotes' := (startsWith_of_drop h _).trans (congrArg Except.ok hquotes)
      rw [skipBlockString, if_pos (lt_of_drop h), hescape', hquotes']
      simp [bind, Except.bind]
    have hnext : bytes.drop (i + 1) = bs ++ suffix := drop_add [b] h
    rw [hstep, ih hnext hslash hquote, List.length_cons]
    congr 1
    omega

theorem skipBlockString_escape (h : bytes.drop i = utf8 ('\\' :: tripleQuote ++ cs)) :
    skipBlockString bytes i =
      skipBlockString bytes (i + byteLength ('\\' :: tripleQuote)) := by
  have hstarts : startsWith bytes i ('\\' :: tripleQuote) = .ok true := by
    rw [startsWith_utf8 escapedQuotes_ascii h]
    simp [tripleQuote, List.isPrefixOf]
  have hslash : bytes.drop i = '\\'.toUInt8 :: utf8 (tripleQuote ++ cs) :=
    drop_of_ascii (by decide) h
  rw [skipBlockString, if_pos (lt_of_drop hslash), hstarts]
  rfl

/-- A character at which a block string neither ends nor has an escape is passed over. -/
theorem skipBlockString_char (h : bytes.drop i = utf8 (c :: cs))
    (hescape : ¬ '\\' :: tripleQuote <+: c :: cs) (hquotes : ¬ tripleQuote <+: c :: cs) :
    skipBlockString bytes i = skipBlockString bytes (i + byteLength [c]) := by
  rw [← List.isPrefixOf_iff_prefix, Bool.not_eq_true] at hescape hquotes
  by_cases hc : c.toNat < 128
  · have hbyte := drop_of_ascii hc h
    rw [skipBlockString, if_pos (lt_of_drop hbyte), startsWith_utf8 escapedQuotes_ascii h,
      startsWith_utf8 tripleQuote_ascii h, hescape, hquotes, byteLength_of_ascii hc]
    simp [bind, Except.bind]
  · rw [byteLength_cons, byteLength_nil, Nat.add_zero, ← String.length_utf8EncodeChar]
    rw [utf8_cons] at h
    refine skipBlockString_add h ?_ ?_
    all_goals
      intro hmem
      obtain rfl := eq_of_mem_utf8EncodeChar (by decide) hmem
      exact hc (by decide)

/-- **A block string is skipped up to its end.** -/
theorem skipBlockString_of_blockRest (h : BlockRest rest)
    (hb : bytes.drop i = utf8 (rest ++ cs)) :
    skipBlockString bytes i = .ok (some (i + byteLength rest)) := by
  induction h generalizing i with
  | close =>
    have hcons : bytes.drop i = utf8 ('"' :: '"' :: '"' :: cs) := hb
    have hescape : startsWith bytes i ('\\' :: tripleQuote) = .ok false := by
      rw [startsWith_utf8 escapedQuotes_ascii hcons]
      simp [List.isPrefixOf]
    rw [skipBlockString, if_pos (lt_of_drop (drop_of_tripleQuote hb)), hescape,
      startsWith_tripleQuote hb]
    rfl
  | @escape rest _ ih =>
    rw [List.append_assoc] at hb
    rw [skipBlockString_escape hb, ih (drop_utf8_add ('\\' :: tripleQuote) hb),
      byteLength_append, Nat.add_assoc]
  | @char c rest hescape hquotes hrest ih =>
    have hescape' := hrest.not_prefix (by decide) hescape cs
    have hquotes' := hrest.not_prefix (by decide) hquotes cs
    rw [skipBlockString_char hb hescape' hquotes', ih (drop_utf8_add [c] hb),
      Nat.add_assoc, ← byteLength_append]
    rfl

/-- The rest of a text in which a block string does not end. -/
inductive BlockUnclosed : List Char → Prop where
  | nil : BlockUnclosed []
  | escape {cs : List Char} : BlockUnclosed cs → BlockUnclosed ('\\' :: tripleQuote ++ cs)
  | char {c : Char} {cs : List Char} : ¬ '\\' :: tripleQuote <+: c :: cs →
    ¬ tripleQuote <+: c :: cs → BlockUnclosed cs → BlockUnclosed (c :: cs)

/-- **A block string ends or not.** -/
theorem blockRest_or_unclosed (cs : List Char) :
    (∃ rest after, cs = rest ++ after ∧ BlockRest rest) ∨ BlockUnclosed cs := by
  induction h : cs.length using Nat.strongRecOn generalizing cs with
  | ind n ih =>
    subst h
    cases cs with
    | nil => exact .inr .nil
    | cons c cs =>
      by_cases hescape : '\\' :: tripleQuote <+: c :: cs
      · obtain ⟨later, hlater⟩ := hescape
        have hless : later.length < (c :: cs).length := by
          rw [← hlater, List.length_append]
          exact Nat.lt_add_of_pos_left (by decide)
        rw [← hlater]
        rcases ih later.length hless later rfl with ⟨rest, after, rfl, hrest⟩ | hopen
        · exact .inl ⟨'\\' :: tripleQuote ++ rest, after, (List.append_assoc _ _ _).symm,
            .escape hrest⟩
        · exact .inr (.escape hopen)
      by_cases hquotes : tripleQuote <+: c :: cs
      · obtain ⟨later, hlater⟩ := hquotes
        exact .inl ⟨tripleQuote, later, hlater.symm, .close⟩
      rcases ih cs.length (Nat.lt_succ_self _) cs rfl with ⟨rest, after, rfl, hrest⟩ | hopen
      · -- what does not stand before the whole rest does not stand before a part of it
        have hshort : ∀ {word : List Char}, ¬ word <+: c :: (rest ++ after) →
            ¬ word <+: c :: rest := by
          intro word hn hp
          exact hn (hp.trans (List.prefix_append (c :: rest) after))
        exact .inl ⟨c :: rest, after, rfl, .char (hshort hescape) (hshort hquotes) hrest⟩
      · exact .inr (.char hescape hquotes hopen)

theorem skipBlockString_of_unclosed (h : BlockUnclosed cs) (hb : bytes.drop i = utf8 cs) :
    skipBlockString bytes i = .ok none := by
  induction h generalizing i with
  | nil =>
    rw [skipBlockString, if_neg (Nat.not_lt.2 (le_of_drop_eq_nil hb))]
    rfl
  | escape _ ih =>
    rw [skipBlockString_escape hb]
    exact ih (drop_utf8_add _ hb)
  | @char c cs hescape hquotes _ ih =>
    rw [skipBlockString_char hb hescape hquotes]
    exact ih (drop_utf8_add [c] hb)

theorem scan_of_blockUnclosed (h : BlockUnclosed cs) :
    scan .blockString 0 braces parens cs = none := by
  induction h with
  | nil => rfl
  | escape _ ih => simp [scan, tripleQuote, List.isPrefixOf, ih]
  | char hescape hquotes _ ih =>
    rw [← List.isPrefixOf_iff_prefix] at hescape hquotes
    simp only [scan, hescape, hquotes, ih]
    rfl

end BlockStrings

end ByteScan

end SelectionModel
