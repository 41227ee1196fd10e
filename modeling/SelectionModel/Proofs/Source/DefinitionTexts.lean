import SelectionModel.Proofs.Source.Tokens

/-!
# What the scan finds

A definition text is made of comments, strings, block strings, parentheses and other
characters, and the braces among these are closed for the first time at its end. The scan
finds such a text wherever it stands and whatever follows, and nothing in a part of it.

* `IsDefinition`: the texts of definitions, by what they are made of.
* `scan_append`: **what is found does not depend on what follows.**
* `Closes.scan_eq`: the scan takes the rest of a definition text up to its end.
* `definitionText?_of_isDefinition`, `definitionText?_of_part`: what is found where a text
  stands, and where only a part of it does.
-/

namespace SelectionModel

namespace DefinitionText

variable {mode : Mode} {skip braces parens depth : Nat} {c : Char} {cs rest text : List Char}

/-! ## Texts -/

/-- The rest of a string behind its first quote. A backslash takes the next character
with it, whichever that is. -/
inductive StringRest : List Char → Prop where
  | close : StringRest ['"']
  | escape {c : Char} {cs : List Char} : StringRest cs → StringRest ('\\' :: c :: cs)
  | char {c : Char} {cs : List Char} : c ≠ '"' → c ≠ '\\' → c ≠ '\n' → StringRest cs →
    StringRest (c :: cs)

/-- The rest of a block string behind its first three quotes. The first three that do not
follow a backslash end it. -/
inductive BlockRest : List Char → Prop where
  | close : BlockRest tripleQuote
  | escape {cs : List Char} : BlockRest cs → BlockRest ('\\' :: tripleQuote ++ cs)
  | char {c : Char} {cs : List Char} : ¬ '\\' :: tripleQuote <+: c :: cs →
    ¬ tripleQuote <+: c :: cs → BlockRest cs → BlockRest (c :: cs)

/-- **A piece of code** and what follows it: a comment with its line break, a string, a
block string, or a character without a meaning. Two quotes are a string only if no third
one follows. -/
inductive Piece : List Char → List Char → Prop where
  | comment {body after : List Char} : '\n' ∉ body → Piece ('#' :: body ++ ['\n']) after
  | string {rest after : List Char} : StringRest rest →
    (rest = ['"'] → after.head? ≠ some '"') → Piece ('"' :: rest) after
  | blockString {rest after : List Char} : BlockRest rest → Piece (tripleQuote ++ rest) after
  | plain {c : Char} {after : List Char} : IsPlain c → Piece [c] after

/-- **What stands between parentheses.** Parentheses in it are balanced; braces need not be. -/
inductive BalancedText : List Char → Prop where
  | nil : BalancedText []
  | piece {piece cs : List Char} : Piece piece cs → BalancedText cs → BalancedText (piece ++ cs)
  | brace {c : Char} {cs : List Char} : c = '\x7b' ∨ c = '\x7d' → BalancedText cs →
    BalancedText (c :: cs)
  | parens {inner cs : List Char} : BalancedText inner → BalancedText cs →
    BalancedText ('(' :: inner ++ ')' :: cs)

/-- **The rest of a definition text** in which some braces are open: it ends where all of
them are closed for the first time. -/
inductive Closes : Nat → List Char → Prop where
  | last : Closes 1 ['\x7d']
  | opening {depth : Nat} {cs : List Char} : Closes (depth + 1) cs → Closes depth ('\x7b' :: cs)
  | closing {depth : Nat} {cs : List Char} : Closes (depth + 1) cs →
    Closes (depth + 2) ('\x7d' :: cs)
  | piece {depth : Nat} {piece cs : List Char} : Piece piece cs → Closes depth cs →
    Closes depth (piece ++ cs)
  | parens {depth : Nat} {inner cs : List Char} : BalancedText inner → Closes depth cs →
    Closes depth ('(' :: inner ++ ')' :: cs)

/-- **The text of a definition.** -/
def IsDefinition (text : List Char) : Prop := Closes 0 text

theorem Piece.ne_nil {piece : List Char} (h : Piece piece cs) : piece ≠ [] := by
  cases h <;> simp [tripleQuote]

/-- A run of characters without a meaning is made of pieces. -/
theorem Closes.plain (cs : List Char) (h : ∀ d ∈ cs, IsPlain d) (hrest : Closes depth rest) :
    Closes depth (cs ++ rest) := by
  induction cs with
  | nil => exact hrest
  | cons c cs ih =>
    obtain ⟨hc, hcs⟩ := List.forall_mem_cons.1 h
    show Closes depth ([c] ++ (cs ++ rest))
    exact .piece (.plain hc) (ih hcs)

/-! ## What follows -/

section Append

variable {found : List Char}

/-- The number of characters that a scan at least goes on for. -/
def Mode.least : Mode → Nat
  | .code => 1
  | .comment => 2
  | .string => 2
  | .blockString => 4

/-- **A scan that succeeds has enough characters before it**: those that close what it is
inside of, and a brace. -/
theorem least_le_length (h : scan mode skip braces parens cs = some found) :
    skip + mode.least ≤ cs.length := by
  induction cs generalizing mode skip braces parens found with
  | nil => cases h
  | cons c cs ih =>
    have goesOn : ∀ {mode' : Mode} {skip' braces' parens' : Nat},
        (scan mode' skip' braces' parens' cs).map (c :: ·) = some found →
        skip' + mode'.least ≤ cs.length := by
      intro mode' skip' braces' parens' h
      obtain ⟨later, hl, -⟩ := Option.map_eq_some_iff.1 h
      exact ih hl
    rw [List.length_cons]
    cases skip with
    | succ skip =>
      have := goesOn h
      omega
    | zero =>
      cases mode with
      | comment =>
        have := goesOn h
        split_ifs at this <;> simp only [Mode.least] at this ⊢ <;> omega
      | string =>
        simp only [scan] at h
        split_ifs at h
        all_goals
          have := goesOn h
          simp only [Mode.least] at this ⊢
          omega
      | blockString =>
        simp only [scan] at h
        split_ifs at h
        all_goals
          have := goesOn h
          simp only [Mode.least] at this ⊢
          omega
      | code =>
        simp only [Mode.least]
        omega

theorem isPrefixOf_append (word : List Char) (h : word.length ≤ cs.length) (more : List Char) :
    word.isPrefixOf (cs ++ more) = word.isPrefixOf cs := by
  rw [Bool.eq_iff_iff, List.isPrefixOf_iff_prefix, List.isPrefixOf_iff_prefix]
  constructor
  · intro hp
    exact List.prefix_of_prefix_length_le hp (List.prefix_append cs more) h
  · intro hp
    exact hp.trans (List.prefix_append cs more)

/-- Whether a block string begins is seen before a scan that succeeds has ended. -/
theorem tripleQuote_isPrefixOf_append
    (h : scan .code 0 braces parens (c :: cs) = some found) (more : List Char) :
    tripleQuote.isPrefixOf (c :: cs ++ more) = tripleQuote.isPrefixOf (c :: cs) := by
  by_cases hc : c = '"'
  · subst hc
    by_cases hp : tripleQuote.isPrefixOf ('"' :: cs) = true
    · exact isPrefixOf_append tripleQuote (List.isPrefixOf_iff_prefix.1 hp).length_le more
    · rw [scan_quote (Bool.eq_false_iff.2 hp)] at h
      obtain ⟨later, hl, -⟩ := Option.map_eq_some_iff.1 h
      have hlength : 0 + Mode.least .string ≤ cs.length := least_le_length hl
      refine isPrefixOf_append tripleQuote ?_ more
      simp only [tripleQuote, Mode.least, List.length_cons, List.length_nil] at hlength ⊢
      omega
  · have hne : ('"' == c) = false := beq_false_of_ne (Ne.symm hc)
    simp [tripleQuote, List.isPrefixOf, hne]

/-- **What is found does not depend on what follows.** -/
theorem scan_append (h : scan mode skip braces parens cs = some found) (more : List Char) :
    scan mode skip braces parens (cs ++ more) = some found := by
  induction cs generalizing mode skip braces parens found with
  | nil => cases h
  | cons c cs ih =>
    have goesOn : ∀ {mode' : Mode} {skip' braces' parens' : Nat},
        (scan mode' skip' braces' parens' cs).map (c :: ·) = some found →
        (scan mode' skip' braces' parens' (cs ++ more)).map (c :: ·) = some found := by
      intro mode' skip' braces' parens' h
      obtain ⟨later, hl, rfl⟩ := Option.map_eq_some_iff.1 h
      rw [ih hl]
      rfl
    cases skip with
    | succ skip => exact goesOn h
    | zero =>
      cases mode with
      | comment => exact goesOn h
      | string =>
        rw [List.cons_append]
        simp only [scan] at h ⊢
        split_ifs at h ⊢
        all_goals exact goesOn h
      | blockString =>
        -- a block string that ends has four characters from here to its end and behind it
        have hlength : 0 + Mode.least .blockString ≤ (c :: cs).length := least_le_length h
        have hescape := isPrefixOf_append ('\\' :: tripleQuote) hlength more
        have hquotes := isPrefixOf_append tripleQuote (Nat.le_of_succ_le hlength) more
        rw [List.cons_append] at hescape hquotes ⊢
        simp only [scan, hescape, hquotes] at h ⊢
        split_ifs at h ⊢
        all_goals exact goesOn h
      | code =>
        have hquotes := tripleQuote_isPrefixOf_append h more
        rw [List.cons_append] at hquotes ⊢
        simp only [scan, hquotes] at h ⊢
        split_ifs at h ⊢
        all_goals try exact goesOn h
        -- the brace that closes the last open one ends the scan
        split at h
        · cases h
        · exact h
        · exact goesOn h

/-- What is found is a part of the text from its start. -/
theorem prefix_of_scan (h : scan mode skip braces parens cs = some found) : found <+: cs := by
  induction cs generalizing mode skip braces parens found with
  | nil => cases h
  | cons c cs ih =>
    rcases scan_step h with ⟨rfl, rfl⟩ | ⟨_, _, _, _, later, hl, rfl⟩
    · exact List.prefix_append ['\x7d'] cs
    · exact List.prefix_cons_iff.2 (.inr ⟨later, rfl, ih hl⟩)

end Append

/-! ## What the scan passes over -/

section Pieces

theorem scan_comment {body : List Char} (h : '\n' ∉ body) :
    scan .comment 0 braces parens (body ++ '\n' :: cs) =
      (scan .code 0 braces parens cs).map (body ++ ['\n'] ++ ·) := by
  induction body with
  | nil => simp [scan]
  | cons c body ih =>
    obtain ⟨hc, hbody⟩ := not_or.1 (mt List.mem_cons.2 h)
    rw [List.cons_append, scan, if_neg (Ne.symm hc), ih hbody, map_cons_append]
    rfl

theorem StringRest.scan_eq (h : StringRest rest) :
    scan .string 0 braces parens (rest ++ cs) =
      (scan .code 0 braces parens cs).map (rest ++ ·) := by
  induction h with
  | close => simp [scan]
  | @escape c rest _ ih =>
    rw [List.cons_append, List.cons_append]
    simp only [scan, ih]
    simp [Function.comp_def]
  | @char c rest hquote hslash hbreak _ ih =>
    rw [List.cons_append]
    simp only [scan, hquote, hslash, hbreak, if_false, ih]
    exact map_cons_append _ _ _

theorem BlockRest.three_le_length (h : BlockRest rest) : 3 ≤ rest.length := by
  induction h with
  | close => exact Nat.le_refl 3
  | escape _ ih => simp [tripleQuote]
  | char _ _ _ ih => exact Nat.le_succ_of_le ih

/-- What ends a block string, or escapes its end, is seen before it has ended. -/
theorem BlockRest.not_prefix (h : BlockRest rest) {word : List Char} (hword : word.length ≤ 4)
    (hn : ¬ word <+: c :: rest) (cs : List Char) : ¬ word <+: c :: (rest ++ cs) := by
  have hlong : word.length ≤ (c :: rest).length := by
    have := h.three_le_length
    rw [List.length_cons]
    omega
  rw [← List.cons_append, ← List.isPrefixOf_iff_prefix, isPrefixOf_append word hlong,
    List.isPrefixOf_iff_prefix]
  exact hn

theorem BlockRest.scan_eq (h : BlockRest rest) :
    scan .blockString 0 braces parens (rest ++ cs) =
      (scan .code 0 braces parens cs).map (rest ++ ·) := by
  induction h with
  | close => simp [scan, tripleQuote, List.isPrefixOf, Function.comp_def]
  | @escape rest _ ih =>
    simp [scan, tripleQuote, List.isPrefixOf, ih, Function.comp_def]
  | @char c rest hescape hquotes hrest ih =>
    have hescape' := hrest.not_prefix (by decide) hescape cs
    have hquotes' := hrest.not_prefix (by decide) hquotes cs
    rw [← List.isPrefixOf_iff_prefix] at hescape' hquotes'
    rw [List.cons_append]
    simp only [scan, hescape', hquotes', ih]
    exact map_cons_append _ _ _

/-- A string of its own does not begin with three quotes. -/
theorem StringRest.tripleQuote_isPrefixOf (h : StringRest rest)
    (hempty : rest = ['"'] → cs.head? ≠ some '"') :
    tripleQuote.isPrefixOf ('"' :: (rest ++ cs)) = false := by
  cases h with
  | close =>
    cases cs with
    | nil => rfl
    | cons c cs =>
      have hc : c ≠ '"' := fun hc => hempty rfl (congrArg some hc)
      simp [tripleQuote, List.isPrefixOf, Ne.symm hc]
  | escape _ => simp [tripleQuote, List.isPrefixOf]
  | char hquote _ _ _ => simp [tripleQuote, List.isPrefixOf, Ne.symm hquote]

/-- **The scan passes over a piece.** -/
theorem Piece.scan_eq {piece : List Char} (h : Piece piece cs) :
    scan .code 0 braces parens (piece ++ cs) =
      (scan .code 0 braces parens cs).map (piece ++ ·) := by
  cases h with
  | @comment body _ hbody =>
    have hsplit : '#' :: body ++ ['\n'] ++ cs = '#' :: (body ++ '\n' :: cs) := by simp
    rw [hsplit]
    simp only [scan, if_true, scan_comment hbody]
    exact map_cons_append _ _ _
  | @string rest _ hrest hempty =>
    rw [List.cons_append, scan_quote (hrest.tripleQuote_isPrefixOf hempty), hrest.scan_eq]
    exact map_cons_append _ _ _
  | blockString hrest =>
    rw [List.append_assoc, scan_tripleQuote, hrest.scan_eq, map_append_append]
  | plain hc => exact scan_plain_cons hc

theorem scan_openParen :
    scan .code 0 braces parens ('(' :: cs) =
      (scan .code 0 braces (parens + 1) cs).map ('(' :: ·) := by
  simp [scan, tripleQuote, List.isPrefixOf]

theorem scan_closeParen :
    scan .code 0 braces parens (')' :: cs) =
      (scan .code 0 braces (parens - 1) cs).map (')' :: ·) := by
  simp [scan, tripleQuote, List.isPrefixOf]

theorem scan_openBrace :
    scan .code 0 braces 0 ('\x7b' :: cs) =
      (scan .code 0 (braces + 1) 0 cs).map ('\x7b' :: ·) := by
  simp [scan, tripleQuote, List.isPrefixOf]

theorem scan_closeBrace :
    scan .code 0 (braces + 2) 0 ('\x7d' :: cs) =
      (scan .code 0 (braces + 1) 0 cs).map ('\x7d' :: ·) := by
  simp [scan, tripleQuote, List.isPrefixOf]

theorem scan_brace_in_parens (h : c = '\x7b' ∨ c = '\x7d') :
    scan .code 0 braces (parens + 1) (c :: cs) =
      (scan .code 0 braces (parens + 1) cs).map (c :: ·) := by
  rcases h with rfl | rfl <;> simp [scan, tripleQuote, List.isPrefixOf]

/-- A piece at the end of what stands in parentheses is followed by the closing one. -/
theorem Piece.append {piece : List Char} (h : Piece piece cs) :
    Piece piece (cs ++ ')' :: rest) := by
  cases h with
  | comment hbody => exact .comment hbody
  | string hrest hempty =>
    refine .string hrest fun he => ?_
    have := hempty he
    cases cs with
    | nil => simp
    | cons c cs => simpa using this
  | blockString hrest => exact .blockString hrest
  | plain hc => exact .plain hc

/-- **The scan passes over what stands in parentheses**, braces included. -/
theorem BalancedText.scan_eq (h : BalancedText cs) :
    scan .code 0 braces (parens + 1) (cs ++ ')' :: rest) =
      (scan .code 0 braces parens rest).map (cs ++ ')' :: ·) := by
  induction h generalizing parens rest with
  | nil => exact scan_closeParen
  | piece hpiece _ ih =>
    rw [List.append_assoc, hpiece.append.scan_eq, ih]
    simp [Function.comp_def]
  | brace hc _ ih =>
    rw [List.cons_append, scan_brace_in_parens hc, ih]
    simp [Function.comp_def]
  | @parens inner cs _ _ ihinner ih =>
    have hsplit : '(' :: inner ++ ')' :: cs ++ ')' :: rest =
        '(' :: (inner ++ ')' :: (cs ++ ')' :: rest)) := by simp
    rw [hsplit, scan_openParen, ihinner, ih]
    simp [Function.comp_def]

/-- **The scan takes the rest of a definition text up to its end.** -/
theorem Closes.scan_eq (h : Closes depth text) : scan .code 0 depth 0 text = some text := by
  induction h with
  | last => rfl
  | opening _ ih => rw [scan_openBrace, ih, Option.map_some]
  | closing _ ih => rw [scan_closeBrace, ih, Option.map_some]
  | piece hpiece _ ih => rw [hpiece.scan_eq, ih, Option.map_some]
  | @parens depth inner cs hinner _ ih =>
    rw [List.cons_append, scan_openParen, hinner.scan_eq, ih]
    rfl

end Pieces

end DefinitionText

open DefinitionText

variable {text : List Char}

/-- **A definition text is found where it stands**, whatever follows it. -/
theorem definitionText?_of_isDefinition (h : IsDefinition text) (before after : List Char) :
    definitionText? (before ++ text ++ after) (Text.byteLength before) = some text := by
  have hscan : scan .code 0 0 0 text = some text := Closes.scan_eq h
  rw [definitionText?, List.append_assoc, Text.dropBytes_append, Option.bind_some]
  exact scan_append hscan after

/-- **Nothing is found where only a part of a definition text stands.** -/
theorem definitionText?_of_part (h : IsDefinition text) (before : List Char) {part : List Char}
    (hpart : part <+: text) (hne : part ≠ text) :
    definitionText? (before ++ part) (Text.byteLength before) = none := by
  rw [definitionText?, Text.dropBytes_append, Option.bind_some, Option.eq_none_iff_forall_ne_some]
  intro found hfound
  -- what is found in the part is found in the whole, where it is the whole
  obtain ⟨more, rfl⟩ := hpart
  have hwhole : some found = some (part ++ more) :=
    (scan_append hfound more).symm.trans (Closes.scan_eq h)
  have hprefix : part ++ more <+: part := Option.some.inj hwhole ▸ prefix_of_scan hfound
  have heq := (List.prefix_append part more).eq_of_length_le hprefix.length_le
  exact hne heq

end SelectionModel
