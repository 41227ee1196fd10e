import SelectionModel.Proofs.Source.ByteStrings

/-!
# Scanning bytes and scanning characters

The scan over the bytes of a text never leaves these, wherever it begins. From the start of
a character it sees what the scan over characters does, since what means something to it is
ASCII: its jumps land on characters again, behind comments, strings and escapes.

* `exists_closingBrace`: the scan of any bytes from any index makes no fault.
* `closingBrace_piece`: **the scan over bytes passes over a piece.**
* `closingBrace_eq`: **from the start of a character both scans agree.**
* `definitionText_eq`: the text that is found, from any offset.
* `definition_text_exact`: **the scan finds exactly the definition.**
-/

namespace SelectionModel

namespace ByteScan

open DefinitionText Text

variable {bytes bs suffix : List UInt8} {b : UInt8} {i braces parens : Nat}
  {c : Char} {cs rest : List Char}

/-! ## Every scan -/

/-- **No index or slice leaves the bytes**, whichever these are and wherever the scan begins. -/
theorem exists_closingBrace (bytes : List UInt8) (i braces parens : Nat) :
    ∃ stop, closingBrace bytes i braces parens = .ok stop := by
  induction h : bytes.length - i using Nat.strongRecOn generalizing i braces parens with
  | ind n ih =>
    subst h
    rw [closingBrace]
    by_cases hi : i < bytes.length
    · obtain ⟨next, hnext, hlt⟩ := exists_step hi braces parens
      rw [if_pos hi]
      split
      next fault he => rw [hnext] at he; cases he
      · exact ⟨none, rfl⟩
      · exact ⟨some (i + 1), rfl⟩
      next j braces' parens' hj =>
        have hij : i < j := lt_of_step hi hj
        exact ih (bytes.length - j) (by omega) j braces' parens' rfl
    · rw [if_neg hi]
      exact ⟨none, rfl⟩

/-! ## Code -/

section Code

variable {piece : List Char}

/-- What a step at an index leads to. -/
def Step.result (bytes : List UInt8) (i : Nat) : Step → Except Fault (Option Nat)
  | .on j braces parens => closingBrace bytes j braces parens
  | .closed => .ok (some (i + 1))
  | .stop => .ok none

/-- **Where the scan is at a byte, the step decides.** -/
theorem closingBrace_of_step {next : Step} (hi : i < bytes.length)
    (h : step bytes i braces parens = .ok next) :
    closingBrace bytes i braces parens = next.result bytes i := by
  rw [closingBrace, if_pos hi]
  split
  next fault he => rw [h] at he; cases he
  all_goals
    next he =>
      rw [h] at he
      obtain rfl := Except.ok.inj he
      rfl

theorem closingBrace_of_le (h : bytes.length ≤ i) :
    closingBrace bytes i braces parens = .ok none := by
  rw [closingBrace, if_neg (Nat.not_lt.2 h)]

theorem step_other (h : bytes.drop i = b :: suffix) (hhash : b ≠ '#'.toUInt8)
    (hquote : b ≠ '"'.toUInt8) : step bytes i braces parens = .ok (.ofByte b i braces parens) := by
  rw [step, byteAt_of_drop h]
  simp [bind, Except.bind, hhash, hquote, pure, Except.pure]

theorem step_hash (braces parens : Nat) (h : bytes.drop i = '#'.toUInt8 :: suffix) :
    step bytes i braces parens = .ok (.on
      ((('#'.toUInt8 :: suffix).findIdx? (· = '\n'.toUInt8)).elim bytes.length (i + ·))
      braces parens) := by
  rw [step, byteAt_of_drop h, ← h]
  simp only [bind, Except.bind, if_true, bytesFrom_eq_ok (lt_of_drop h).le]
  rfl

theorem step_string (braces parens : Nat) {next : Option Nat} (hb : bytes.drop i = utf8 ('"' :: cs))
    (hquotes : tripleQuote.isPrefixOf ('"' :: cs) = false)
    (hskip : skipString bytes (i + 1) = .ok next) :
    step bytes i braces parens = .ok (.behind braces parens next) := by
  have hstarts : startsWith bytes i tripleQuote = .ok false := by
    rw [startsWith_utf8 tripleQuote_ascii hb, hquotes]
  rw [step, byteAt_of_drop (drop_of_ascii (by decide) hb)]
  simp only [bind, Except.bind, hstarts, hskip]
  rfl

theorem step_blockString (braces parens : Nat) {next : Option Nat}
    (hb : bytes.drop i = utf8 (tripleQuote ++ cs))
    (hskip : skipBlockString bytes (i + 3) = .ok next) :
    step bytes i braces parens = .ok (.behind braces parens next) := by
  rw [step, byteAt_of_drop (drop_of_tripleQuote hb)]
  simp only [bind, Except.bind, startsWith_tripleQuote hb, hskip]
  rfl

/-- Bytes that mean nothing in code are passed over. -/
theorem closingBrace_add (h : bytes.drop i = bs ++ suffix)
    (hplain : ∀ a : Char, ¬ IsPlain a → a.toNat < 128 → a.toUInt8 ∉ bs) :
    closingBrace bytes i braces parens = closingBrace bytes (i + bs.length) braces parens := by
  induction bs generalizing i with
  | nil => rfl
  | cons b bs ih =>
    have hne : ∀ a : Char, ¬ IsPlain a → a.toNat < 128 → b ≠ a.toUInt8 := fun a hp ha hb =>
      hplain a hp ha (hb ▸ List.mem_cons_self)
    have hother : Step.ofByte b i braces parens = .on (i + 1) braces parens := by
      unfold Step.ofByte
      rw [if_neg (hne '(' (by decide) (by decide)),
        if_neg (hne ')' (by decide) (by decide)),
        if_neg (fun h => hne '\x7b' (by decide) (by decide) h.1),
        if_neg (fun h => hne '\x7d' (by decide) (by decide) h.1)]
    have hstep : closingBrace bytes i braces parens = closingBrace bytes (i + 1) braces parens := by
      rw [closingBrace_of_step (lt_of_drop h) (step_other h (hne '#' (by decide) (by decide))
        (hne '"' (by decide) (by decide))), hother]
      rfl
    have hnext : bytes.drop (i + 1) = bs ++ suffix := drop_add [b] h
    rw [hstep, ih hnext fun a hp ha hmem => hplain a hp ha (List.mem_cons_of_mem b hmem),
      List.length_cons]
    congr 1
    omega

theorem closingBrace_plain (hc : IsPlain c) (hb : bytes.drop i = utf8 (c :: cs)) :
    closingBrace bytes i braces parens =
      closingBrace bytes (i + byteLength [c]) braces parens := by
  rw [byteLength_cons, byteLength_nil, Nat.add_zero, ← String.length_utf8EncodeChar]
  rw [utf8_cons] at hb
  refine closingBrace_add hb fun a hp ha hmem => hp ?_
  obtain rfl := eq_of_mem_utf8EncodeChar ha hmem
  exact hc

/-- A text without a line break has no byte of one. -/
theorem findIdx?_of_notMem (h : '\n' ∉ cs) :
    (utf8 cs).findIdx? (· = '\n'.toUInt8) = none := by
  rw [List.findIdx?_eq_none_iff]
  intro b hb
  rw [decide_eq_false_iff_not]
  rintro rfl
  exact h (mem_of_mem_utf8 (by decide) hb)

/-- The first line break behind a text that holds none. -/
theorem findIdx?_break (h : '\n' ∉ cs) (suffix : List UInt8) :
    (utf8 cs ++ '\n'.toUInt8 :: suffix).findIdx? (· = '\n'.toUInt8) = some (byteLength cs) := by
  rw [List.findIdx?_append, findIdx?_of_notMem h]
  simp [List.findIdx?_cons]

/-- **The scan over bytes passes over a piece.** -/
theorem closingBrace_piece (h : Piece piece rest) (hb : bytes.drop i = utf8 (piece ++ rest)) :
    closingBrace bytes i braces parens =
      closingBrace bytes (i + byteLength piece) braces parens := by
  cases h with
  | @comment body _ hbody =>
    -- the jump leads to the line break, which means nothing
    have hsplit : '#' :: body ++ ['\n'] ++ rest = ('#' :: body) ++ '\n' :: rest := by simp
    rw [hsplit] at hb
    have hhash : bytes.drop i =
        '#'.toUInt8 :: utf8 (body ++ '\n' :: rest) := drop_of_ascii (by decide) hb
    have hline : bytes.drop (i + byteLength ('#' :: body)) = utf8 ('\n' :: rest) :=
      drop_utf8_add _ hb
    have hnotin : '\n' ∉ '#' :: body := by simp [hbody]
    have hbreak : ('#'.toUInt8 :: utf8 (body ++ '\n' :: rest)).findIdx? (· = '\n'.toUInt8) =
        some (byteLength ('#' :: body)) := by
      have := findIdx?_break hnotin (utf8 rest)
      rw [utf8_cons, utf8EncodeChar_of_ascii (by decide)] at this
      rw [utf8_append, utf8_cons, utf8EncodeChar_of_ascii (by decide)]
      exact this
    have hstep := step_hash braces parens hhash
    rw [hbreak] at hstep
    rw [closingBrace_of_step (lt_of_drop hhash) hstep, byteLength_append, ← Nat.add_assoc]
    exact closingBrace_plain (by decide) hline
  | @string string _ hrest hempty =>
    have hnext := drop_utf8_add ['"'] hb
    have hskip := skipString_of_stringRest hrest hnext
    have hstep := step_string braces parens hb
      (hrest.tripleQuote_isPrefixOf hempty) hskip
    rw [closingBrace_of_step (lt_of_drop (drop_of_ascii (by decide) hb)) hstep]
    have hlength : i + byteLength ('"' :: string) = i + 1 + byteLength string :=
      (Nat.add_assoc i 1 _).symm
    rw [hlength]
    rfl
  | @blockString string _ hrest =>
    rw [List.append_assoc] at hb
    have hnext := drop_utf8_add tripleQuote hb
    have hskip := skipBlockString_of_blockRest hrest hnext
    have hstep := step_blockString braces parens hb hskip
    rw [closingBrace_of_step (lt_of_drop (drop_of_tripleQuote hb)) hstep, byteLength_append,
      ← Nat.add_assoc]
    rfl
  | plain hc => exact closingBrace_plain hc hb

/-- The rest of a text that ends inside of a comment or a string. -/
inductive Unclosed : List Char → Prop where
  | comment {cs : List Char} : '\n' ∉ cs → Unclosed ('#' :: cs)
  | string {cs : List Char} : tripleQuote.isPrefixOf ('"' :: cs) = false → StringUnclosed cs →
    Unclosed ('"' :: cs)
  | blockString {cs : List Char} : BlockUnclosed cs → Unclosed (tripleQuote ++ cs)

theorem Unclosed.scan_eq (h : Unclosed cs) : scan .code 0 braces parens cs = none := by
  cases h with
  | @comment cs hbreak =>
    have hcomment : scan .comment 0 braces parens cs = none := by
      induction cs with
      | nil => rfl
      | cons c cs ih =>
        obtain ⟨hc, hcs⟩ := not_or.1 (mt List.mem_cons.2 hbreak)
        rw [scan, if_neg (Ne.symm hc), ih hcs]
        rfl
    simp [scan, hcomment]
  | string hquotes hopen => rw [scan_quote hquotes, scan_of_stringUnclosed hopen, Option.map_none]
  | blockString hopen => rw [scan_tripleQuote, scan_of_blockUnclosed hopen, Option.map_none]

theorem Unclosed.closingBrace_eq (h : Unclosed cs) (hb : bytes.drop i = utf8 cs) :
    closingBrace bytes i braces parens = .ok none := by
  cases h with
  | @comment cs hbreak =>
    have hhash := drop_of_ascii (by decide) hb
    have hnone : ('#'.toUInt8 :: utf8 cs).findIdx? (· = '\n'.toUInt8) = none := by
      rw [← drop_of_ascii (by decide) hb, hb]
      exact findIdx?_of_notMem (by simpa using hbreak)
    have hstep := step_hash braces parens hhash
    rw [hnone] at hstep
    rw [closingBrace_of_step (lt_of_drop hhash) hstep]
    exact closingBrace_of_le (Nat.le_refl _)
  | string hquotes hopen =>
    have hskip := skipString_of_unclosed hopen (drop_utf8_add ['"'] hb)
    have hstep := step_string braces parens hb hquotes hskip
    rw [closingBrace_of_step (lt_of_drop (drop_of_ascii (by decide) hb)) hstep]
    rfl
  | @blockString cs hopen =>
    have hskip := skipBlockString_of_unclosed hopen (drop_utf8_add tripleQuote hb)
    have hstep := step_blockString braces parens hb hskip
    rw [closingBrace_of_step (lt_of_drop (drop_of_tripleQuote hb)) hstep]
    rfl

/-- **What code begins with**: a piece, a bracket, or a comment or string without an end. -/
theorem code_cases (c : Char) (cs : List Char) :
    (∃ piece rest, c :: cs = piece ++ rest ∧ Piece piece rest) ∨
      (c = '(' ∨ c = ')' ∨ c = '\x7b' ∨ c = '\x7d') ∨ Unclosed (c :: cs) := by
  by_cases hplain : IsPlain c
  · exact .inl ⟨[c], cs, rfl, .plain hplain⟩
  by_cases hhash : c = '#'
  · subst hhash
    by_cases hbreak : '\n' ∈ cs
    · obtain ⟨body, rest, rfl, hbody⟩ := List.eq_append_cons_of_mem hbreak
      exact .inl ⟨'#' :: body ++ ['\n'], rest, by simp, .comment hbody⟩
    · exact .inr (.inr (.comment hbreak))
  by_cases hquote : c = '"'
  · subst hquote
    by_cases hquotes : tripleQuote.isPrefixOf ('"' :: cs) = true
    · obtain ⟨later, hlater⟩ := List.isPrefixOf_iff_prefix.1 hquotes
      rw [← hlater]
      rcases blockRest_or_unclosed later with ⟨rest, after, rfl, hrest⟩ | hopen
      · exact .inl ⟨tripleQuote ++ rest, after, (List.append_assoc _ _ _).symm,
          .blockString hrest⟩
      · exact .inr (.inr (.blockString hopen))
    · rw [Bool.not_eq_true] at hquotes
      rcases stringRest_or_unclosed cs with ⟨rest, after, rfl, hrest⟩ | hopen
      · refine .inl ⟨'"' :: rest, after, rfl, .string hrest ?_⟩
        -- an empty string and a quote would be three quotes
        rintro rfl hhead
        obtain ⟨later, rfl⟩ := List.head?_eq_some_iff.1 hhead
        simp [tripleQuote, List.isPrefixOf] at hquotes
      · exact .inr (.inr (.string hquotes hopen))
  · simp only [IsPlain, not_and_or, not_not] at hplain
    tauto

end Code

/-! ## Both scans -/

section Agree

variable {braces' parens' : Nat} {piece : List Char}

/-- **Both scans find the same** in the rest of a text that begins at an index. -/
def Agree (bytes : List UInt8) (i braces parens : Nat) (cs : List Char) : Prop :=
  closingBrace bytes i braces parens =
    .ok ((scan .code 0 braces parens cs).map (i + byteLength ·))

/-- Scans that pass over the same characters and agree behind them agree. -/
theorem Agree.append
    (hbytes : closingBrace bytes i braces parens =
      closingBrace bytes (i + byteLength piece) braces' parens')
    (hchars : scan .code 0 braces parens (piece ++ rest) =
      (scan .code 0 braces' parens' rest).map (piece ++ ·))
    (h : Agree bytes (i + byteLength piece) braces' parens' rest) :
    Agree bytes i braces parens (piece ++ rest) := by
  rw [Agree, hbytes, h, hchars, Option.map_map]
  congr 2
  funext found
  rw [Function.comp_apply, byteLength_append, Nat.add_assoc]

/-- At a bracket the scans count the same. -/
theorem agree_bracket (hc : c = '(' ∨ c = ')' ∨ c = '\x7b' ∨ c = '\x7d')
    (hb : bytes.drop i = utf8 (c :: cs))
    (h : ∀ braces parens, Agree bytes (i + 1) braces parens cs) :
    Agree bytes i braces parens (c :: cs) := by
  have hascii : c.toNat < 128 := by rcases hc with rfl | rfl | rfl | rfl <;> decide
  have hbyte := drop_of_ascii hascii hb
  have hsize : byteLength [c] = 1 := byteLength_of_ascii hascii
  have hstep : closingBrace bytes i braces parens =
      (Step.ofByte c.toUInt8 i braces parens).result bytes i := by
    refine closingBrace_of_step (lt_of_drop hbyte) (step_other hbyte ?_ ?_)
    all_goals rcases hc with rfl | rfl | rfl | rfl <;> decide
  have goesOn : ∀ {braces' parens' : Nat},
      Step.ofByte c.toUInt8 i braces parens = .on (i + 1) braces' parens' →
      scan .code 0 braces parens (c :: cs) =
        (scan .code 0 braces' parens' cs).map (c :: ·) →
      Agree bytes i braces parens (c :: cs) := by
    intro braces' parens' hon hscan
    have hbytes : closingBrace bytes i braces parens =
        closingBrace bytes (i + byteLength [c]) braces' parens' := by
      rw [hstep, hon, hsize]
      rfl
    exact Agree.append hbytes hscan (hsize ▸ h braces' parens')
  rcases hc with rfl | rfl | rfl | rfl
  · exact goesOn rfl scan_openParen
  · exact goesOn rfl scan_closeParen
  · cases parens with
    | zero => exact goesOn rfl scan_openBrace
    | succ parens => exact goesOn rfl (scan_brace_in_parens (.inl rfl))
  · cases parens with
    | zero =>
      match braces with
      | 0 => exact hstep
      | 1 => exact hstep
      | braces + 2 => exact goesOn rfl scan_closeBrace
    | succ parens => exact goesOn rfl (scan_brace_in_parens (.inr rfl))

/-- **From the start of a character both scans agree.** -/
theorem closingBrace_eq (hb : bytes.drop i = utf8 cs) : Agree bytes i braces parens cs := by
  induction h : cs.length using Nat.strongRecOn generalizing i braces parens cs with
  | ind n ih =>
    subst h
    cases cs with
    | nil => exact closingBrace_of_le (le_of_drop_eq_nil hb)
    | cons c cs =>
      rcases code_cases c cs with ⟨piece, rest, hsplit, hpiece⟩ | hc | hopen
      · have hless : rest.length < (c :: cs).length := by
          rw [hsplit, List.length_append]
          exact Nat.lt_add_of_pos_left (List.length_pos_iff.2 hpiece.ne_nil)
        rw [hsplit] at hb ⊢
        exact Agree.append (closingBrace_piece hpiece hb) hpiece.scan_eq
          (ih rest.length hless (drop_utf8_add piece hb) rfl)
      · have hnext : bytes.drop (i + 1) = utf8 cs := by
          have hascii : c.toNat < 128 := by rcases hc with rfl | rfl | rfl | rfl <;> decide
          exact drop_add [c.toUInt8] (drop_of_ascii hascii hb)
        exact agree_bracket hc hb fun _ _ => ih cs.length (Nat.lt_succ_self _) hnext rfl
      · rw [Agree, hopen.closingBrace_eq hb, hopen.scan_eq]
        rfl

/-- **The scan over bytes gives what the scan over characters does**, at offsets inside of
characters and past the end, too. -/
theorem definitionText_eq (content : List Char) (start : Nat) :
    definitionText content start = .ok (definitionText? content start) := by
  cases hdrop : dropBytes start content with
  | none =>
    -- whatever the scan comes to, no text begins here
    obtain ⟨stop, hstop⟩ := exists_closingBrace (utf8 content) start 0 0
    rw [definitionText, hstop, definitionText?, hdrop]
    cases stop with
    | none => rfl
    | some stop => simp [Except.map, slice?, hdrop]
  | some rest =>
    obtain ⟨before, rfl, rfl⟩ := eq_append_of_dropBytes hdrop
    have hb : (utf8 (before ++ rest)).drop (byteLength before) = utf8 rest := by
      rw [utf8_append, ← length_utf8, List.drop_left]
    have hagree : Agree _ _ 0 0 rest := closingBrace_eq hb
    rw [definitionText, hagree, definitionText?, hdrop, Option.bind_some]
    cases hscan : scan .code 0 0 0 rest with
    | none => rfl
    | some found =>
      obtain ⟨after, rfl⟩ := prefix_of_scan hscan
      exact congrArg Except.ok (slice?_append before found after)

end Agree

end ByteScan

open DefinitionText

/-- **The scan finds exactly the definition.** A definition text is found wherever it stands
and whatever follows it. Where only a part of one stands, nothing is found. The scan over
the bytes of a text, from any offset, keeps to these and gives what is found. -/
theorem definition_text_exact :
    (∀ before text after : List Char, IsDefinition text →
      definitionText? (before ++ text ++ after) (Text.byteLength before) = some text) ∧
    (∀ before text part : List Char, IsDefinition text → part <+: text → part ≠ text →
      definitionText? (before ++ part) (Text.byteLength before) = none) ∧
    ∀ content start, ByteScan.definitionText content start = .ok (definitionText? content start) :=
  ⟨fun before _ after h => definitionText?_of_isDefinition h before after,
    fun before _ _ h => definitionText?_of_part h before, ByteScan.definitionText_eq⟩

namespace Sample

/-- A definition with braces between parentheses, in a comment and in strings of each kind. -/
def layeredText : List Char := "f\x7ba(\x7d\"\")\"\"\"\x7d\\\"\"\"\x7b\"\"\"#\x7d
\"\\\"\x7d\"\x7d".toList

theorem isDefinition_layered : IsDefinition layeredText := by
  have hempty : Piece ['"', '"'] [] := .string .close fun _ => by decide
  have hinner : BalancedText ('\x7d' :: (['"', '"'] ++ [])) :=
    .brace (.inr rfl) (.piece hempty .nil)
  have hblock : BlockRest ('\x7d' :: ('\\' :: tripleQuote ++ '\x7b' :: tripleQuote)) :=
    .char (by decide) (by decide) (.escape (.char (by decide) (by decide) .close))
  have hstring : StringRest ['\\', '"', '\x7d', '"'] :=
    .escape (.char (by decide) (by decide) (by decide) .close)
  have hlast : Closes 1 ('"' :: ['\\', '"', '\x7d', '"'] ++ ['\x7d']) :=
    .piece (.string hstring fun h => by cases h) .last
  have hcomment : Closes 1 ('#' :: ['\x7d'] ++ ['\n'] ++ _) := .piece (.comment (by decide)) hlast
  have hbody := Closes.plain ['a'] (List.forall_mem_singleton.2 (by decide))
    (.parens hinner (.piece (.blockString hblock) hcomment))
  exact .plain ['f'] (List.forall_mem_singleton.2 (by decide)) (.opening hbody)

end Sample

/-- That definition behind a character of two bytes and before another brace, without its
last brace, and from an offset inside of that character. -/
theorem sample_definition_exact :
    IsDefinition Sample.layeredText ∧
      definitionText? ("é".toList ++ Sample.layeredText ++ "\x7d".toList) 2 =
        some Sample.layeredText ∧
      definitionText? ("é".toList ++ Sample.layeredText.dropLast) 2 = none ∧
      ByteScan.definitionText ("é".toList ++ Sample.layeredText) 1 = .ok none := by
  have hdefinition := Sample.isDefinition_layered
  have hlength : Text.byteLength "é".toList = 2 := by decide
  obtain ⟨hfound, hpart, hbytes⟩ := definition_text_exact
  refine ⟨hdefinition, ?_, ?_, ?_⟩
  · rw [← hlength]
    exact hfound _ _ _ hdefinition
  · rw [← hlength]
    exact hpart _ _ _ hdefinition (List.dropLast_prefix _) (by decide)
  · rw [hbytes]
    rfl

end SelectionModel
