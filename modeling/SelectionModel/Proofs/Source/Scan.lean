import Mathlib.Tactic.SplitIfs
import SelectionModel.Language.Token
import SelectionModel.Source.DefinitionText

/-!
# Scanning a definition

The scan for the end of a definition goes on character by character, or stops at the
brace that it looks for. It passes over comments and strings as a whole, so that only the
brackets in code count.

* `scan_step`: one step of a scan that succeeds.
* `getLast?_of_scan`: **a text that the scan finds ends with the closing brace.**
* `scan_plain`, `scan_string`, `scan_blockBody`: what the scan passes over. A string ends
  for the scan where it ends for the reader of tokens.
-/

namespace SelectionModel

namespace DefinitionText

variable {mode : Mode} {skip braces parens : Nat} {c : Char} {cs rest : List Char}

/-- Passing over no characters changes nothing. -/
@[simp] theorem map_nil_append (x : Option (List Char)) : x.map ([] ++ ·) = x := by
  cases x <;> rfl

/-- Passing over one character and then over some more. -/
theorem map_cons_append (x : Option (List Char)) (c : Char) (cs : List Char) :
    (x.map (cs ++ ·)).map (c :: ·) = x.map (c :: cs ++ ·) := by
  cases x <;> rfl

/-- Passing over some characters and then over some more. -/
theorem map_append_append (x : Option (List Char)) (cs ds : List Char) :
    (x.map (ds ++ ·)).map (cs ++ ·) = x.map (cs ++ ds ++ ·) := by
  cases x with
  | none => rfl
  | some y => simp [List.append_assoc]

/-! ## Every scan -/

/-- **One step of a scan that succeeds**: it ends with a closing brace, or it keeps the
character and goes on. -/
theorem scan_step {found : List Char} (h : scan mode skip braces parens (c :: cs) = some found) :
    (c = '\x7d' ∧ found = [c]) ∨
      ∃ mode' skip' braces' parens' later,
        scan mode' skip' braces' parens' cs = some later ∧ found = c :: later := by
  have goesOn : ∀ {mode' : Mode} {skip' braces' parens' : Nat},
      (scan mode' skip' braces' parens' cs).map (c :: ·) = some found →
      ∃ mode' skip' braces' parens' later,
        scan mode' skip' braces' parens' cs = some later ∧ found = c :: later := by
    intro mode' skip' braces' parens' h
    obtain ⟨later, hl, he⟩ := Option.map_eq_some_iff.1 h
    exact ⟨mode', skip', braces', parens', later, hl, he.symm⟩
  cases skip with
  | succ skip => exact .inr (goesOn h)
  | zero =>
    cases mode with
    | comment => exact .inr (goesOn h)
    | string =>
      simp only [scan] at h
      split_ifs at h
      · exact .inr (goesOn h)
      · exact .inr (goesOn h)
      · exact .inr (goesOn h)
    | blockString =>
      simp only [scan] at h
      split_ifs at h
      · exact .inr (goesOn h)
      · exact .inr (goesOn h)
      · exact .inr (goesOn h)
    | code =>
      simp only [scan] at h
      split_ifs at h with _ _ _ _ _ _ hc
      · exact .inr (goesOn h)
      · exact .inr (goesOn h)
      · exact .inr (goesOn h)
      · exact .inr (goesOn h)
      · exact .inr (goesOn h)
      · exact .inr (goesOn h)
      · -- a closing brace ends the scan when it is the only one that is open
        split at h
        · cases h
        · exact .inl ⟨hc.1, (Option.some.inj h).symm⟩
        · exact .inr (goesOn h)
      · exact .inr (goesOn h)

/-- **A text that the scan finds ends with the closing brace.** -/
theorem getLast?_of_scan {found : List Char} (h : scan mode skip braces parens cs = some found) :
    found.getLast? = some '\x7d' := by
  induction cs generalizing mode skip braces parens found with
  | nil => cases h
  | cons c cs ih =>
    rcases scan_step h with ⟨rfl, rfl⟩ | ⟨_, _, _, _, later, hl, rfl⟩
    · rfl
    · rw [List.getLast?_cons, ih hl]
      rfl

/-! ## Code -/

section Code

/-- A character that means nothing to the scan outside of comments and strings. -/
def IsPlain (c : Char) : Prop :=
  c ≠ '#' ∧ c ≠ '"' ∧ c ≠ '(' ∧ c ≠ ')' ∧ c ≠ '\x7b' ∧ c ≠ '\x7d'

instance (c : Char) : Decidable (IsPlain c) := inferInstanceAs (Decidable (_ ∧ _))

theorem scan_plain_cons (h : IsPlain c) :
    scan .code 0 braces parens (c :: cs) = (scan .code 0 braces parens cs).map (c :: ·) := by
  obtain ⟨hhash, hquote, hopen, hclose, hbrace, hunbrace⟩ := h
  have htriple : tripleQuote.isPrefixOf (c :: cs) = false := by
    simp [tripleQuote, List.isPrefixOf, Ne.symm hquote]
  simp [scan, hhash, hquote, hopen, hclose, hbrace, hunbrace, htriple]

/-- The scan passes over plain characters. -/
theorem scan_plain (h : ∀ d ∈ cs, IsPlain d) :
    scan .code 0 braces parens (cs ++ rest) = (scan .code 0 braces parens rest).map (cs ++ ·) := by
  induction cs with
  | nil => simp
  | cons c cs ih =>
    obtain ⟨hc, hcs⟩ := List.forall_mem_cons.1 h
    rw [List.cons_append, scan_plain_cons hc, ih hcs, map_cons_append]

end Code

/-! ## Strings -/

/-- Where the scan of a string is: an escape makes it skip a character. -/
theorem scan_string {escaped : Bool} {body : List Char}
    (h : Token.stringBody? escaped cs = some (body, rest)) :
    scan .string (if escaped then 1 else 0) braces parens cs =
      (scan .code 0 braces parens rest).map (body ++ ['"'] ++ ·) := by
  induction cs generalizing escaped body with
  | nil => cases h
  | cons c cs ih =>
    rw [Token.stringBody?] at h
    split_ifs at h with hbreak hquote
    · obtain ⟨rfl, rfl⟩ := hquote
      obtain ⟨rfl, rfl⟩ := Prod.mk.inj (Option.some.inj h)
      simp [scan]
    · obtain ⟨⟨inner, last⟩, hb, he⟩ := Option.map_eq_some_iff.1 h
      obtain ⟨rfl, rfl⟩ := Prod.mk.inj he
      have ih := ih hb
      cases escaped with
      | true =>
        simp only [Bool.not_true, Bool.and_false, Bool.false_eq_true, if_false] at ih
        rw [if_pos rfl, scan, ih]
        cases scan .code 0 braces parens last <;> rfl
      | false =>
        have hne : c ≠ '"' := fun hc => hquote ⟨hc, rfl⟩
        by_cases hslash : c = '\\'
        · simp only [hslash, decide_true, Bool.not_false, Bool.and_true, if_true] at ih
          simp only [Bool.false_eq_true, if_false, scan, hslash, ih]
          cases scan .code 0 braces parens last <;> rfl
        · simp only [hslash, decide_false, Bool.false_and, Bool.false_eq_true, if_false] at ih
          simp only [Bool.false_eq_true, if_false, scan, hbreak, hslash, hne, ih]
          cases scan .code 0 braces parens last <;> rfl

/-- Where the scan of a block string is: three quotes behind a backslash, which do not
end it, are skipped with that. -/
def blockSkip (skip : Nat) (escaped : Bool) (cs : List Char) : Nat :=
  if skip = 0 ∧ escaped = true ∧ tripleQuote.isPrefixOf cs = true then 3 else skip

theorem blockSkip_false {skip : Nat} : blockSkip skip false cs = skip := by
  simp [blockSkip]

theorem scan_blockBody {skip : Nat} {escaped : Bool} {body : List Char}
    (h : Token.blockBody? skip escaped cs = some (body, rest)) :
    scan .blockString (blockSkip skip escaped cs) braces parens cs =
      (scan .code 0 braces parens rest).map (body ++ tripleQuote ++ ·) := by
  induction cs generalizing skip escaped body with
  | nil => cases h
  | cons c cs ih =>
    -- a character of the body: the scan keeps it and goes on in the same way
    have goesOn : ∀ {skip' skip'' : Nat} {escaped' : Bool},
        (Token.blockBody? skip' escaped' cs).map (fun r => (c :: r.1, r.2)) = some (body, rest) →
        blockSkip skip' escaped' cs = skip'' →
        (scan .blockString skip'' braces parens cs).map (c :: ·) =
          (scan .code 0 braces parens rest).map (body ++ tripleQuote ++ ·) := by
      intro skip' skip'' escaped' h hskip
      obtain ⟨⟨inner, last⟩, hb, he⟩ := Option.map_eq_some_iff.1 h
      obtain ⟨rfl, rfl⟩ := Prod.mk.inj he
      rw [← hskip, ih hb, map_cons_append]
      rfl
    cases skip with
    | succ skip =>
      have hskip : blockSkip (skip + 1) escaped (c :: cs) = skip + 1 := by simp [blockSkip]
      rw [hskip, scan]
      exact goesOn h blockSkip_false
    | zero =>
      have hkeep : tripleQuote.isPrefixOf (c :: cs) = ['"', '"', '"'].isPrefixOf (c :: cs) := rfl
      rw [Token.blockBody?] at h
      by_cases hquotes : tripleQuote.isPrefixOf (c :: cs) = true
      · rw [← hkeep, if_pos hquotes] at h
        cases escaped with
        | true =>
          have hskip : blockSkip 0 true (c :: cs) = 3 := by simp [blockSkip, hquotes]
          rw [hskip, scan]
          exact goesOn h blockSkip_false
        | false =>
          -- the quotes end the string
          obtain ⟨later, hl⟩ := List.isPrefixOf_iff_prefix.1 hquotes
          obtain ⟨rfl, rfl⟩ := List.cons.inj hl
          obtain ⟨rfl, rfl⟩ := Prod.mk.inj (Option.some.inj h)
          simp [blockSkip, scan, tripleQuote, List.isPrefixOf, Function.comp_def]
      · rw [← hkeep, if_neg hquotes] at h
        have hskip : blockSkip 0 escaped (c :: cs) = 0 := by simp [blockSkip, hquotes]
        rw [hskip]
        simp only [scan]
        by_cases hslash : ('\\' :: tripleQuote).isPrefixOf (c :: cs) = true
        · rw [if_pos hslash]
          refine goesOn h ?_
          obtain ⟨later, hl⟩ := List.isPrefixOf_iff_prefix.1 hslash
          obtain ⟨rfl, rfl⟩ := List.cons.inj hl
          simp [blockSkip, tripleQuote, List.isPrefixOf]
        · rw [if_neg hslash, if_neg hquotes]
          refine goesOn h ?_
          simp only [List.isPrefixOf, Bool.and_eq_true, beq_iff_eq, not_and] at hslash
          simp only [blockSkip, decide_eq_true_eq, true_and, ite_eq_right_iff]
          intro hc
          exact absurd hc.2 (hslash hc.1.symm)

end DefinitionText

end SelectionModel
