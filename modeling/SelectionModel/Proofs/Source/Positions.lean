import Mathlib.Data.List.TakeWhile
import SelectionModel.Proofs.Language.Lexemes
import SelectionModel.Source.LineIndex

/-!
# Counted and reported positions

The line index counts line breaks and characters. The reader of tokens has rules of its
own, by which tabs are wide, carriage returns and byte order marks have no width, and a
carriage return ends a comment and its line. Where none of these matter, it reports the
positions that are counted.

* `lastLine`, `Position.behind`: the position behind some text, as counted.
* `LineIndex.offset?_behind`: **the line index finds what is at a counted position.**
* `Reported`: a position as it is reported behind some text.
* `Lexes.reported`: **what is reported behind lexemes** in whose gaps no comment ends with
  a carriage return.
-/

namespace SelectionModel

/-! ## Lines -/

/-- What stands behind the last line break of a text. -/
def lastLine (cs : List Char) : List Char := (cs.reverse.takeWhile (· != '\n')).reverse

/-- **The position behind some text**, by its line breaks and by the characters behind the
last of them. -/
def Position.behind (cs : List Char) : Position := ⟨cs.count '\n' + 1, (lastLine cs).length + 1⟩

section LastLine

variable {c : Char} {cs ds : List Char}

theorem mem_of_mem_lastLine (h : c ∈ lastLine cs) : c ∈ cs :=
  List.mem_reverse.1 ((List.takeWhile_sublist _).subset (List.mem_reverse.1 h))

/-- Without a line break the last line goes on. -/
theorem lastLine_append (h : '\n' ∉ ds) : lastLine (cs ++ ds) = lastLine cs ++ ds := by
  have hall : ∀ d ∈ ds.reverse, (d != '\n') = true := by
    intro d hd
    rw [bne_iff_ne]
    rintro rfl
    exact h (List.mem_reverse.1 hd)
  rw [lastLine, lastLine, List.reverse_append, List.takeWhile_append_of_pos hall,
    List.reverse_append, List.reverse_reverse]

theorem lastLine_of_notMem (h : '\n' ∉ ds) : lastLine ds = ds := by
  have hline : lastLine ([] ++ ds) = lastLine [] ++ ds := lastLine_append h
  exact hline

/-- A line break starts a line. -/
theorem lastLine_append_break (cs ds : List Char) :
    lastLine (cs ++ '\n' :: ds) = lastLine ds := by
  have hreverse : (cs ++ '\n' :: ds).reverse = ds.reverse ++ '\n' :: cs.reverse := by simp
  rw [lastLine, lastLine, hreverse, List.takeWhile_append]
  split
  next h =>
    rw [List.takeWhile_cons_of_neg (by simp), List.append_nil,
      (List.takeWhile_prefix _).eq_of_length h]
  · rfl

theorem lastLine_append_of_mem (h : '\n' ∈ ds) : lastLine (cs ++ ds) = lastLine ds := by
  obtain ⟨before, after, rfl⟩ := List.append_of_mem h
  rw [← List.append_assoc, lastLine_append_break, lastLine_append_break]

end LastLine

/-! ## The line index -/

namespace LineIndex

/-- The line behind some text starts behind its last line break. -/
theorem exists_start (before rest : List Char) (offset : Nat) :
    ∃ init, before = init ++ lastLine before ∧
      (offset :: startsAfter offset (before ++ rest))[before.count '\n']? =
        some (offset + Text.byteLength init) := by
  induction before generalizing offset with
  | nil => exact ⟨[], rfl, rfl⟩
  | cons c cs ih =>
    obtain ⟨init, hinit, hstart⟩ := ih (offset + c.utf8Size)
    by_cases hc : c = '\n'
    · subst hc
      refine ⟨'\n' :: init, ?_, ?_⟩
      · have hline : lastLine ('\n' :: cs) = lastLine cs := lastLine_append_break [] cs
        rw [hline, List.cons_append, ← hinit]
      · rw [List.count_cons_self, List.getElem?_cons_succ, List.cons_append, startsAfter,
          if_pos rfl, hstart, Text.byteLength_cons, Nat.add_assoc]
    · have hcount : (c :: cs).count '\n' = cs.count '\n' := List.count_cons_of_ne hc
      rw [hcount, List.cons_append, startsAfter, if_neg hc]
      by_cases hcs : '\n' ∈ cs
      · -- the line starts behind a later line break
        refine ⟨c :: init, ?_, ?_⟩
        · have hline : lastLine ([c] ++ cs) = lastLine cs := lastLine_append_of_mem hcs
          rw [List.singleton_append] at hline
          rw [hline, List.cons_append, ← hinit]
        · obtain ⟨n, hn⟩ := Nat.exists_eq_add_one.2 (List.count_pos_iff.2 hcs)
          rw [hn, List.getElem?_cons_succ] at hstart ⊢
          rw [hstart, Text.byteLength_cons, Nat.add_assoc]
      · refine ⟨[], ?_, ?_⟩
        · have hnone : '\n' ∉ c :: cs := by
            rw [List.mem_cons, not_or]
            exact ⟨Ne.symm hc, hcs⟩
          rw [lastLine_of_notMem hnone, List.nil_append]
        · rw [List.count_eq_zero.2 hcs]
          rfl

/-- **The line index finds what is at a counted position.** -/
theorem offset?_behind (before : List Char) (c : Char) (rest : List Char) :
    (ofText (before ++ c :: rest)).offset? (before ++ c :: rest) (Position.behind before) =
      some (Text.byteLength before) := by
  obtain ⟨init, hinit, hstart⟩ := exists_start before (c :: rest) 0
  have hdrop : Text.dropBytes (Text.byteLength init) (before ++ c :: rest) =
      some (lastLine before ++ c :: rest) := by
    rw [← Text.dropBytes_append init, ← List.append_assoc, ← hinit]
  have hchar : charOffset? (lastLine before).length (lastLine before ++ c :: rest) =
      some (Text.byteLength (lastLine before)) := by
    rw [charOffset?, if_pos (by simp), List.take_left]
  have hlength : Text.byteLength init + Text.byteLength (lastLine before) =
      Text.byteLength before := by
    rw [← Text.byteLength_append, ← hinit]
  rw [Nat.zero_add] at hstart
  simp only [offset?, Position.behind, ofText, hstart, hdrop, hchar, Option.bind_eq_bind,
    Option.bind_some, hlength]

end LineIndex

/-! ## Reported positions -/

/-- A character that the reader of tokens counts as one column between tokens, too. -/
def IsCounted (c : Char) : Prop := c ≠ '\t' ∧ c ≠ '\r' ∧ c ≠ '\uFEFF'

instance (c : Char) : Decidable (IsCounted c) := inferInstanceAs (Decidable (_ ∧ _))

/-- **A position as it is reported behind some text**: its line is counted, and its column
if every character in front of it on the line is. -/
structure Reported (before : List Char) (p : Position) : Prop where
  line : p.line = (Position.behind before).line
  column : (∀ c ∈ lastLine before, IsCounted c) → p.column = (Position.behind before).column

/-- No comment in a gap ends with a carriage return. -/
def ReturnsOutsideComments (gap : List Char) : Prop :=
  ∀ before comment after, gap = before ++ '#' :: (comment ++ '\r' :: after) → '\n' ∈ comment

theorem ReturnsOutsideComments.tail {c : Char} {cs : List Char}
    (h : ReturnsOutsideComments (c :: cs)) : ReturnsOutsideComments cs :=
  fun before comment after he => h (c :: before) comment after (by rw [he, List.cons_append])

namespace Reported

variable {before cs : List Char} {c : Char} {p q : Position}

theorem start : Reported [] ⟨1, 1⟩ := ⟨rfl, fun _ => rfl⟩

/-- A position on a line of counted characters is the counted one. -/
theorem eq_behind (h : Reported before p) (hc : ∀ c ∈ lastLine before, IsCounted c) :
    p = Position.behind before :=
  congrArg₂ Position.mk h.line (h.column hc)

/-- Text without a line break stays on the line. -/
theorem line_append (h : p.line = (Position.behind before).line) (hcs : '\n' ∉ cs) :
    p.line = (Position.behind (before ++ cs)).line := by
  rw [h, Position.behind, Position.behind, List.count_append, List.count_eq_zero.2 hcs,
    Nat.add_zero]

/-- **Behind a token**, also if it has several lines. -/
theorem advance (h : Reported before p) (text : List Char) :
    Reported (before ++ text) (Lexer.advance p text) := by
  rw [Lexer.advance]
  by_cases hbreak : '\n' ∈ text
  · have hcount : text.count '\n' ≠ 0 := by
      rw [Ne, List.count_eq_zero]
      exact not_not_intro hbreak
    simp only [hcount, if_false]
    refine ⟨?_, fun _ => ?_⟩
    · have hline := h.line
      simp only [Position.behind, List.count_append] at hline ⊢
      omega
    · rw [Position.behind, lastLine_append_of_mem hbreak, lastLine, List.length_reverse]
  · simp only [List.count_eq_zero.2 hbreak, if_true]
    refine ⟨line_append h.line hbreak, fun hc => ?_⟩
    simp only [Position.behind, lastLine_append hbreak, List.length_append] at hc ⊢
    have hcolumn := h.column fun c hin => hc c (List.mem_append_left _ hin)
    simp only [Position.behind] at hcolumn
    omega

/-- Behind a blank or a comma. -/
theorem blank (h : Reported before p) (hc : c ≠ '\n') :
    Reported (before ++ [c]) { p with column := p.column + 1 } := by
  have hnone : '\n' ∉ [c] := by simpa using Ne.symm hc
  have hadvance := h.advance [c]
  rw [Lexer.advance] at hadvance
  simpa only [List.count_eq_zero.2 hnone, if_true, List.length_singleton] using hadvance

/-- Behind a character that is not counted no column is. -/
theorem odd (h : Reported before p) (hc : c ≠ '\n') (hodd : ¬IsCounted c) {column : Nat} :
    Reported (before ++ [c]) ⟨p.line, column⟩ := by
  have hnone : '\n' ∉ [c] := by simpa using Ne.symm hc
  refine ⟨line_append h.line hnone, fun hall => absurd (hall c ?_) hodd⟩
  rw [lastLine_append hnone]
  exact List.mem_append_right _ (List.mem_singleton_self c)

/-- A line break starts the next line. -/
theorem newline (h : p.line = (Position.behind before).line) :
    Reported (before ++ ['\n']) ⟨p.line + 1, 1⟩ := by
  refine ⟨?_, fun _ => ?_⟩
  · simp only [h, Position.behind, List.count_append, List.count_singleton_self]
  · simp only [Position.behind, lastLine_append_break]
    rfl

end Reported

/-- A gap, and what is left of a gap inside of a comment, where only the line is known. -/
theorem Skips.reported_from {inComment : Bool} {p q : Position} {gap before : List Char}
    (h : Skips inComment p gap q) (hr : ReturnsOutsideComments gap) :
    (inComment = false → Reported before p → Reported (before ++ gap) q) ∧
    (inComment = true → p.line = (Position.behind before).line →
      (∀ comment after, gap = comment ++ '\r' :: after → '\n' ∈ comment) →
      Reported (before ++ gap) q) := by
  induction h generalizing before with
  | nil =>
    rw [List.append_nil]
    exact ⟨fun _ h => h, fun h => Bool.noConfusion h⟩
  | @blank _ _ c cs hblank _ ih =>
    have hc : c ≠ '\n' := by rcases hblank with rfl | rfl <;> decide
    rw [List.append_cons]
    exact ⟨fun _ h => (ih hr.tail).1 rfl (h.blank hc), fun h => Bool.noConfusion h⟩
  | tab _ ih =>
    rw [List.append_cons]
    refine ⟨fun _ h => (ih hr.tail).1 rfl (h.odd (by decide) ?_), fun h => Bool.noConfusion h⟩
    exact fun hc => hc.1 rfl
  | @mark p _ c cs hmark _ ih =>
    have hc : c ≠ '\n' := by rcases hmark with rfl | rfl <;> decide
    rw [List.append_cons]
    refine ⟨fun _ h => (ih hr.tail).1 rfl (h.odd hc ?_), fun h => Bool.noConfusion h⟩
    rcases hmark with rfl | rfl
    · exact fun hc => hc.2.1 rfl
    · exact fun hc => hc.2.2 rfl
  | newline _ ih =>
    rw [List.append_cons]
    exact ⟨fun _ h => (ih hr.tail).1 rfl (.newline h.line), fun h => Bool.noConfusion h⟩
  | hash _ ih =>
    rw [List.append_cons]
    refine ⟨fun _ h => (ih hr.tail).2 rfl (Reported.line_append h.line (by decide)) ?_,
      fun h => Bool.noConfusion h⟩
    exact fun comment after he => hr [] comment after (by rw [he, List.nil_append])
  | @inside _ _ c cs _ hbreak _ ih =>
    rw [List.append_cons]
    refine ⟨fun h => Bool.noConfusion h, fun _ hline hcomment => ?_⟩
    have hnone : '\n' ∉ [c] := by simpa using Ne.symm hbreak
    refine (ih hr.tail).2 rfl (Reported.line_append hline hnone) fun comment after he => ?_
    have hmem := hcomment (c :: comment) after (by rw [he, List.cons_append])
    exact (List.mem_cons.1 hmem).resolve_left (Ne.symm hbreak)
  | @ends _ _ c cs hends _ ih =>
    rw [List.append_cons]
    refine ⟨fun h => Bool.noConfusion h, fun _ hline hcomment => ?_⟩
    rcases hends with rfl | rfl
    · -- a comment that ends with a carriage return
      exact absurd (hcomment [] cs rfl) List.not_mem_nil
    · exact (ih hr.tail).1 rfl (.newline hline)

theorem Skips.reported {p q : Position} {gap before : List Char} (h : Skips false p gap q)
    (hb : Reported before p) (hr : ReturnsOutsideComments gap) : Reported (before ++ gap) q :=
  (h.reported_from hr).1 rfl hb

/-- **What is reported behind lexemes** in whose gaps no comment ends with a carriage
return. -/
theorem Lexes.reported {p q : Position} {cs after before : List Char} {ls : List Lexeme}
    (h : Lexes p cs ls q after) (hb : Reported before p)
    (hr : ∀ l ∈ ls, ReturnsOutsideComments l.gap) : Reported (before ++ textOf ls) q := by
  induction h generalizing before with
  | nil => simpa [textOf] using hb
  | @cons _ _ _ _ _ _ l ls hs _ _ ih =>
    obtain ⟨hl, hls⟩ := List.forall_mem_cons.1 hr
    have hlater := ih ((hs.reported hb hl).advance l.text) hls
    simpa [textOf] using hlater

end SelectionModel
