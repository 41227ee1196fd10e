import Mathlib.Data.List.TakeWhile
import SelectionModel.Proofs.Language.Lexemes
import SelectionModel.Proofs.Source.Scan

/-!
# Scanning tokens

The scan for the end of a definition goes over the text that tokens were read from. It
passes over every token but brackets, and over every gap in which each comment ends with a
line break.

* `scan_read`: a token that is no bracket.
* `scan_gap`: a gap.
-/

namespace SelectionModel

open DefinitionText

variable {braces parens : Nat} {c : Char} {cs rest : List Char}

/-! ## Numbers and names -/

namespace Token

/-- The characters that numbers are made of. -/
def IsNumberChar (c : Char) : Prop :=
  c.isDigit = true ∨ c = '-' ∨ c = '+' ∨ c = '.' ∨ c = 'e' ∨ c = 'E'

theorem IsNumberChar.isPlain (h : IsNumberChar c) : IsPlain c := by
  rcases h with h | rfl | rfl | rfl | rfl | rfl
  · refine ⟨?_, ?_, ?_, ?_, ?_, ?_⟩ <;> rintro rfl <;> cases h
  all_goals decide

theorem isPlain_of_isNameChar (h : isNameChar c = true) : IsPlain c := by
  refine ⟨?_, ?_, ?_, ?_, ?_, ?_⟩ <;> rintro rfl <;> cases h

theorem isPlain_of_isNameStart (h : isNameStart c = true) : IsPlain c := by
  refine ⟨?_, ?_, ?_, ?_, ?_, ?_⟩ <;> rintro rfl <;> cases h

theorem digits_isNumberChar (h : cs.all Char.isDigit = true) : ∀ d ∈ cs, IsNumberChar d :=
  fun d hd => .inl (List.all_eq_true.1 h d hd)

/-- Behind its first character an integer has digits. -/
theorem isIntegerText_isNumberChar (h : isIntegerText (c :: cs) = true) :
    ∀ d ∈ cs, IsNumberChar d := by
  rw [isIntegerText.eq_def] at h
  split at h
  next he =>
    obtain ⟨-, rfl⟩ := List.cons.inj he
    exact fun _ hd => absurd hd List.not_mem_nil
  next he =>
    obtain ⟨-, rfl⟩ := List.cons.inj he
    exact fun d hd => List.mem_singleton.1 hd ▸ .inl rfl
  · cases h
  · cases h
  · cases h
  next he =>
    obtain ⟨-, rfl⟩ := List.cons.inj he
    exact digits_isNumberChar h
  · cases h

theorem exponentValue?_isNumberChar {e : Int} (h : exponentValue? cs = some e) :
    ∀ d ∈ cs, IsNumberChar d := by
  rw [exponentValue?.eq_def] at h
  split at h
  · split at h
    next hds =>
      rw [Bool.and_eq_true] at hds
      exact List.forall_mem_cons.2 ⟨.inr (.inl rfl), digits_isNumberChar hds.1⟩
    · cases h
  · split at h
    next hds =>
      rw [Bool.and_eq_true] at hds
      exact List.forall_mem_cons.2 ⟨.inr (.inr (.inl rfl)), digits_isNumberChar hds.1⟩
    · cases h
  · split at h
    next d ds _ _ hds =>
      have hd : d.isDigit = true := by
        have hlow : 48 ≤ d.val := UInt32.le_trans (by decide) hds.1
        have hhigh : d.val ≤ 57 := UInt32.le_trans hds.2.1 (by decide)
        simp [Char.isDigit, hlow, hhigh]
      exact List.forall_mem_cons.2 ⟨.inl hd, digits_isNumberChar hds.2.2⟩
    · cases h
  · cases h

/-- A list that is split stands around an element with the property. -/
theorem exists_of_splitLast? {p : Char → Bool} {before after : List Char}
    (h : splitLast? p cs = some (before, after)) : ∃ d, p d = true ∧ cs = before ++ d :: after := by
  rw [splitLast?, List.span_eq_takeWhile_dropWhile] at h
  simp only at h
  split at h
  · cases h
  next d ds hd =>
  obtain ⟨rfl, rfl⟩ := Prod.mk.inj (Option.some.inj h)
  have hp : p d = true := by
    have hhead := List.head?_dropWhile_not (fun c => !p c) cs.reverse
    rw [hd] at hhead
    simpa using hhead
  refine ⟨d, hp, ?_⟩
  have hsplit := List.takeWhile_append_dropWhile (p := fun c => !p c) (l := cs.reverse)
  rw [hd] at hsplit
  have hreverse := congrArg List.reverse hsplit
  simpa using hreverse.symm

/-- What a part of a number in front of its point or its exponent leaves to be checked. -/
theorem isNumberChar_of_floatValue? {whole fraction : List Char} {e : Int} {x : Binary64}
    (hw : floatValue? whole fraction e = some x)
    (hc : ∀ d, whole.head? = some d → IsNumberChar d) : ∀ d ∈ whole, IsNumberChar d := by
  rw [floatValue?] at hw
  split at hw
  next hi =>
    cases whole with
    | nil => cases hi
    | cons d ds => exact List.forall_mem_cons.2 ⟨hc d rfl, isIntegerText_isNumberChar hi⟩
  · cases hw

/-- What stands in front of some characters starts as the whole does. -/
theorem head?_of_append {before after : List Char}
    (hc : ∀ d, (before ++ after).head? = some d → IsNumberChar d) :
    ∀ d, before.head? = some d → IsNumberChar d :=
  fun d hd => hc d (by rw [List.head?_append, hd, Option.some_or])

/-- A part of a number with a point, or without one. -/
theorem isNumberChar_of_mantissa {mantissa : List Char} {e : Int} {x : Binary64}
    (h : (match splitLast? (fun c => c == '.') mantissa with
      | some (whole, fraction) =>
        if (fraction.all Char.isDigit && !fraction.isEmpty) = true then floatValue? whole fraction e
        else none
      | none => floatValue? mantissa [] e) = some x)
    (hc : ∀ d, mantissa.head? = some d → IsNumberChar d) : ∀ d ∈ mantissa, IsNumberChar d := by
  split at h
  next whole fraction hs =>
    split at h
    next hf =>
      obtain ⟨p, hp, rfl⟩ := exists_of_splitLast? hs
      rw [Bool.and_eq_true] at hf
      have hw := isNumberChar_of_floatValue? h (head?_of_append hc)
      have hpoint : IsNumberChar p := .inr (.inr (.inr (.inl (by simpa using hp))))
      exact List.forall_mem_append.2
        ⟨hw, List.forall_mem_cons.2 ⟨hpoint, digits_isNumberChar hf.1⟩⟩
    · cases h
  · exact isNumberChar_of_floatValue? h hc

theorem isNumberChar_of_float? {x : Binary64} (h : float? cs = some x)
    (hc : ∀ d, cs.head? = some d → IsNumberChar d) : ∀ d ∈ cs, IsNumberChar d := by
  rw [float?] at h
  simp only at h
  split at h
  next mantissa exponent hs =>
    split at h
    · cases h
    split at h
    · cases h
    next e he =>
    obtain ⟨d, hd, rfl⟩ := exists_of_splitLast? hs
    have hm := isNumberChar_of_mantissa h (head?_of_append hc)
    have hletter : IsNumberChar d := by
      simp only [Bool.or_eq_true, beq_iff_eq] at hd
      exact .inr (.inr (.inr (.inr hd)))
    exact List.forall_mem_append.2
      ⟨hm, List.forall_mem_cons.2 ⟨hletter, exponentValue?_isNumberChar he⟩⟩
  · split at h
    next whole fraction hs =>
      refine isNumberChar_of_mantissa (e := 0) (x := x) ?_ hc
      rw [hs]
      exact h
    · cases h

/-- **The characters of a number**, given what it starts with. -/
theorem ofNumber?_isNumberChar {token : Token} (h : ofNumber? (c :: cs) = some token)
    (hc : IsNumberChar c) : ∀ d ∈ c :: cs, IsNumberChar d := by
  rw [ofNumber?] at h
  split at h
  · obtain ⟨x, hx, -⟩ := Option.map_eq_some_iff.1 h
    exact isNumberChar_of_float? hx fun d hd => Option.some.inj hd ▸ hc
  · split at h
    next hi => exact List.forall_mem_cons.2 ⟨hc, isIntegerText_isNumberChar hi⟩
    · cases h

end Token

/-! ## Tokens -/

/-- A quote that does not stand before two more begins a string. -/
theorem scan_quote (h : tripleQuote.isPrefixOf ('"' :: cs) = false) :
    scan .code 0 braces parens ('"' :: cs) = (scan .string 0 braces parens cs).map ('"' :: ·) := by
  simp [scan, h]

theorem scan_tripleQuote :
    scan .code 0 braces parens (tripleQuote ++ cs) =
      (scan .blockString 0 braces parens cs).map (tripleQuote ++ ·) := by
  simp [scan, tripleQuote, List.isPrefixOf, Function.comp_def]

theorem scan_readString {r : Token.Read} (h : Token.readString? cs = some r) :
    scan .code 0 braces parens ('"' :: cs) =
      (scan .code 0 braces parens r.rest).map (r.lexeme ++ ·) := by
  rw [Token.readString?.eq_def] at h
  split at h
  next later =>
    obtain ⟨⟨body, rest⟩, hb, rfl⟩ := Option.map_eq_some_iff.1 h
    have hscan : scan .blockString (blockSkip 0 false later) braces parens later =
        (scan .code 0 braces parens rest).map (body ++ tripleQuote ++ ·) := scan_blockBody hb
    rw [blockSkip_false] at hscan
    have hquotes : '"' :: '"' :: '"' :: later = tripleQuote ++ later := rfl
    rw [hquotes, scan_tripleQuote, hscan, map_append_append]
    simp [tripleQuote]
  next hother =>
    obtain ⟨⟨body, rest⟩, hb, hs⟩ := Option.bind_eq_some_iff.1 h
    obtain ⟨value, -, rfl⟩ := Option.map_eq_some_iff.1 hs
    have hscan : scan .string 0 braces parens cs =
        (scan .code 0 braces parens rest).map (body ++ ['"'] ++ ·) := scan_string hb
    have hquote : tripleQuote.isPrefixOf ('"' :: cs) = false := by
      rw [Bool.eq_false_iff]
      intro hp
      obtain ⟨later, hl⟩ := List.isPrefixOf_iff_prefix.1 hp
      exact hother later (List.cons.inj hl).2.symm
    rw [scan_quote hquote, hscan, map_cons_append]
    rfl

/-- **The scan passes over a token that is no bracket.** -/
theorem scan_read {r : Token.Read} (h : Token.read? c cs = some r)
    (hb : ∀ d, r.token = .punctuator d → IsPlain d) :
    scan .code 0 braces parens (c :: cs) =
      (scan .code 0 braces parens r.rest).map (r.lexeme ++ ·) := by
  have htext := Token.append_of_read? h
  rcases Token.read?_cases h with
    ⟨rfl, -⟩ | ⟨rest, rfl, rfl, rfl⟩ | ⟨hname, rfl⟩ | ⟨token, hstart, hnumber, rfl⟩ | ⟨rfl, hs⟩
  · exact scan_plain_cons (hb c rfl)
  · have hdot : IsPlain '.' := by decide
    rw [htext]
    refine scan_plain fun d hd => ?_
    obtain rfl : d = '.' := by simpa using hd
    exact hdot
  · rw [htext]
    refine scan_plain (List.forall_mem_cons.2 ⟨Token.isPlain_of_isNameStart hname, ?_⟩)
    exact fun d hd => Token.isPlain_of_isNameChar (List.mem_takeWhile_imp hd)
  · have hc : Token.IsNumberChar c := hstart.symm.imp_right .inl
    rw [htext]
    exact scan_plain fun d hd => (Token.ofNumber?_isNumberChar hnumber hc d hd).isPlain
  · exact scan_readString hs

/-! ## Gaps -/

/-- Behind each number sign a line break stands: comments end with a line break. -/
def CommentsBreak (gap : List Char) : Prop :=
  ∀ before after, gap = before ++ '#' :: after → '\n' ∈ after

theorem CommentsBreak.tail (h : CommentsBreak (c :: cs)) : CommentsBreak cs :=
  fun before after he => h (c :: before) after (by rw [he, List.cons_append])

theorem CommentsBreak.cons (h : CommentsBreak cs) (hc : c = '#' → '\n' ∈ cs) :
    CommentsBreak (c :: cs) := by
  intro before after he
  cases before with
  | nil =>
    obtain ⟨rfl, rfl⟩ := List.cons.inj he
    exact hc rfl
  | cons d ds => exact h ds after (List.cons.inj he).2

/-- In a gap without carriage returns a comment ends with a line break. -/
theorem Skips.commentsBreak {inComment : Bool} {p q : Position} {gap : List Char}
    (h : Skips inComment p gap q) (hr : '\r' ∉ gap) :
    CommentsBreak gap ∧ (inComment = true → '\n' ∈ gap) := by
  have tail : ∀ {c : Char} {cs : List Char}, '\r' ∉ c :: cs → '\r' ∉ cs :=
    fun h hcs => h (List.mem_cons_of_mem _ hcs)
  induction h with
  | nil => exact ⟨fun before after he => by simp at he, fun h => Bool.noConfusion h⟩
  | blank hblank _ ih =>
    refine ⟨(ih (tail hr)).1.cons ?_, fun h => Bool.noConfusion h⟩
    rintro rfl
    exact absurd hblank (by decide)
  | tab _ ih => exact ⟨(ih (tail hr)).1.cons fun h => absurd h (by decide), fun h => Bool.noConfusion h⟩
  | mark hmark _ ih =>
    refine ⟨(ih (tail hr)).1.cons ?_, fun h => Bool.noConfusion h⟩
    rintro rfl
    exact absurd hmark (by decide)
  | newline _ ih =>
    exact ⟨(ih (tail hr)).1.cons fun h => absurd h (by decide), fun h => Bool.noConfusion h⟩
  | hash _ ih =>
    obtain ⟨hbreaks, hbreak⟩ := ih (tail hr)
    exact ⟨hbreaks.cons fun _ => hbreak rfl, fun h => Bool.noConfusion h⟩
  | inside _ _ _ ih =>
    obtain ⟨hbreaks, hbreak⟩ := ih (tail hr)
    exact ⟨hbreaks.cons fun _ => hbreak rfl, fun _ => List.mem_cons_of_mem _ (hbreak rfl)⟩
  | ends hends _ ih =>
    rcases hends with rfl | rfl
    · exact absurd List.mem_cons_self hr
    · exact ⟨(ih (tail hr)).1.cons fun h => absurd h (by decide), fun _ => List.mem_cons_self⟩

/-- Some characters are passed over in code, and also in a comment that ends in them. -/
def PassedOver (braces parens : Nat) (cs rest : List Char) : Prop :=
  scan .code 0 braces parens (cs ++ rest) = (scan .code 0 braces parens rest).map (cs ++ ·) ∧
    ('\n' ∈ cs → scan .comment 0 braces parens (cs ++ rest) =
      (scan .code 0 braces parens rest).map (cs ++ ·))

/-- In a comment the scan goes on up to the line break. -/
theorem scan_comment_cons (hbreak : c = '\n' → scan .code 0 braces parens (cs ++ rest) =
      (scan .code 0 braces parens rest).map (cs ++ ·))
    (hother : '\n' ∈ cs → scan .comment 0 braces parens (cs ++ rest) =
      (scan .code 0 braces parens rest).map (cs ++ ·)) (h : '\n' ∈ c :: cs) :
    scan .comment 0 braces parens (c :: cs ++ rest) =
      (scan .code 0 braces parens rest).map (c :: cs ++ ·) := by
  rw [List.cons_append, scan]
  by_cases hc : c = '\n'
  · rw [if_pos hc, hbreak hc, map_cons_append]
  · have hcs : '\n' ∈ cs := (List.mem_cons.1 h).resolve_left (Ne.symm hc)
    rw [if_neg hc, hother hcs, map_cons_append]

theorem PassedOver.cons (h : PassedOver braces parens cs rest) (hc : IsPlain c) :
    PassedOver braces parens (c :: cs) rest := by
  obtain ⟨hcode, hcomment⟩ := h
  refine ⟨?_, scan_comment_cons (fun _ => hcode) hcomment⟩
  rw [List.cons_append, scan_plain_cons hc, hcode, map_cons_append]

/-- A gap, and what is left of it where the scan is in a comment. For the reader of tokens
that comment may have ended before the line did. -/
theorem scan_skips {inComment : Bool} {p q : Position} {gap : List Char}
    (h : Skips inComment p gap q) (hc : CommentsBreak gap) :
    (inComment = false → PassedOver braces parens gap rest) ∧
      ('\n' ∈ gap → scan .comment 0 braces parens (gap ++ rest) =
        (scan .code 0 braces parens rest).map (gap ++ ·)) := by
  have both : ∀ {inComment : Bool} {cs : List Char}, PassedOver braces parens cs rest →
      (inComment = false → PassedOver braces parens cs rest) ∧
        ('\n' ∈ cs → scan .comment 0 braces parens (cs ++ rest) =
          (scan .code 0 braces parens rest).map (cs ++ ·)) :=
    fun h => ⟨fun _ => h, h.2⟩
  induction h with
  | nil => exact both ⟨(map_nil_append _).symm, fun h => absurd h List.not_mem_nil⟩
  | @blank _ _ c _ hblank _ ih =>
    have hplain : IsPlain c := by rcases hblank with rfl | rfl <;> decide
    exact both (((ih hc.tail).1 rfl).cons hplain)
  | tab _ ih => exact both (((ih hc.tail).1 rfl).cons (by decide))
  | @mark _ _ c _ hmark _ ih =>
    have hplain : IsPlain c := by rcases hmark with rfl | rfl <;> decide
    exact both (((ih hc.tail).1 rfl).cons hplain)
  | newline _ ih => exact both (((ih hc.tail).1 rfl).cons (by decide))
  | hash _ ih =>
    obtain ⟨-, hcomment⟩ := ih hc.tail
    refine both ⟨?_, scan_comment_cons (fun h => absurd h (by decide)) hcomment⟩
    have hbreak := hcomment (hc [] _ rfl)
    simp only [List.cons_append, scan, if_true, hbreak, map_cons_append]
  | inside _ hd _ ih =>
    obtain ⟨-, hcomment⟩ := ih hc.tail
    exact ⟨fun h => Bool.noConfusion h, scan_comment_cons (fun h => absurd h hd) hcomment⟩
  | ends _ _ ih =>
    obtain ⟨hcode, hcomment⟩ := ih hc.tail
    exact ⟨fun h => Bool.noConfusion h, scan_comment_cons (fun _ => (hcode rfl).1) hcomment⟩

/-- **The scan passes over a gap** whose comments end with a line break. -/
theorem scan_gap {p q : Position} {gap : List Char} (h : Skips false p gap q)
    (hc : CommentsBreak gap) :
    scan .code 0 braces parens (gap ++ rest) =
      (scan .code 0 braces parens rest).map (gap ++ ·) :=
  ((scan_skips h hc).1 rfl).1

end SelectionModel
