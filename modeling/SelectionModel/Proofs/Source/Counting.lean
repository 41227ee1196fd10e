import SelectionModel.Proofs.Language.Brackets
import SelectionModel.Proofs.Source.Tokens

/-!
# Counting brackets

The scan for the end of a definition counts which brackets are open. What it counts
behind lexemes is said by their tokens alone, and tokens that are balanced leave it as it
was.

* `Token.Counts`, `Counts`: what is open in front of tokens, and behind them.
* `Lexes.scan_counts`: **the scan counts along lexemes.**
* `Balanced.counts`: balanced tokens leave as many brackets open as there were.
* `Lexes.scan_eq`: **the scan of a definition takes its lexemes, and ends with the last.**
-/

namespace SelectionModel

open DefinitionText

/-! ## What is counted -/

/-- How many braces and parentheses are open. -/
structure OpenBrackets where
  braces : Nat
  parens : Nat

/-- **What a token does to the open brackets.** Braces count outside of parentheses, and
there none of these closes the only one that is open. -/
inductive Token.Counts : Token → OpenBrackets → OpenBrackets → Prop where
  | plain {t : Token} {s : OpenBrackets} : ¬t.IsBracket → Token.Counts t s s
  | opens {b n : Nat} : Token.Counts (.punctuator '(') ⟨b, n⟩ ⟨b, n + 1⟩
  | closes {b n : Nat} : Token.Counts (.punctuator ')') ⟨b, n + 1⟩ ⟨b, n⟩
  | inside {t : Token} {b n : Nat} : t = .punctuator '\x7b' ∨ t = .punctuator '\x7d' →
    Token.Counts t ⟨b, n + 1⟩ ⟨b, n + 1⟩
  | brace {b : Nat} : Token.Counts (.punctuator '\x7b') ⟨b, 0⟩ ⟨b + 1, 0⟩
  | unbrace {b : Nat} : Token.Counts (.punctuator '\x7d') ⟨b + 2, 0⟩ ⟨b + 1, 0⟩

/-- What tokens in a row do to the open brackets. -/
inductive Counts : List Token → OpenBrackets → OpenBrackets → Prop where
  | nil {s : OpenBrackets} : Counts [] s s
  | cons {t : Token} {xs : List Token} {s s' s'' : OpenBrackets} :
    t.Counts s s' → Counts xs s' s'' → Counts (t :: xs) s s''

theorem Counts.append {xs ys : List Token} {s s' s'' : OpenBrackets} (hx : Counts xs s s')
    (hy : Counts ys s' s'') : Counts (xs ++ ys) s s'' := by
  induction hx with
  | nil => exact hy
  | cons ht _ ih => exact .cons ht (ih hy)

/-- Between parentheses nothing is counted but these. -/
theorem NoParentheses.counts {xs : List Token} (h : NoParentheses xs) (b n : Nat) :
    Counts xs ⟨b, n + 1⟩ ⟨b, n + 1⟩ := by
  induction xs with
  | nil => exact .nil
  | cons t xs ih =>
    obtain ⟨ht, hxs⟩ := List.forall_mem_cons.1 h
    refine .cons ?_ (ih hxs)
    by_cases hb : t.IsBracket
    · exact .inside (hb.resolve_left ht)
    · exact .plain hb

/-- **Balanced tokens leave as many brackets open as there were**: nested braces are not
the only ones. -/
theorem Balanced.counts {nesting : Bool} {xs : List Token} (h : Balanced nesting xs) {b : Nat}
    (hb : nesting = true → 0 < b) : Counts xs ⟨b, 0⟩ ⟨b, 0⟩ := by
  induction h generalizing b with
  | nil => exact .nil
  | plain ht _ ih => exact .cons (.plain ht) (ih hb)
  | parentheses hinner _ ih =>
    exact .cons .opens ((hinner.counts b 0).append (.cons .closes (ih hb)))
  | braces hn _ _ ihinner ih =>
    obtain ⟨n, rfl⟩ := Nat.exists_eq_add_one.2 (hb hn)
    exact .cons .brace ((ihinner fun _ => Nat.succ_pos _).append (.cons .unbrace (ih hb)))

/-- A definition is open up to its last token. -/
theorem InBracesBehindHeader.counts {xs : List Token} (h : InBracesBehindHeader xs) :
    ∃ init, xs = init ++ [.punctuator '\x7d'] ∧ Counts init ⟨0, 0⟩ ⟨1, 0⟩ := by
  obtain ⟨header, _, hheader, ⟨inner, hinner, rfl⟩, rfl⟩ := h
  refine ⟨header ++ .punctuator '\x7b' :: inner, by simp, ?_⟩
  have hopen := hheader.counts (b := 0) fun h => Bool.noConfusion h
  exact hopen.append (.cons .brace (hinner.counts fun _ => Nat.one_pos))

/-! ## The scan -/

namespace Token

variable {c d : Char} {cs text rest : List Char}

theorem ofNumber?_ne_punctuator : ofNumber? cs ≠ some (.punctuator d) := by
  rw [ofNumber?]
  split_ifs <;> simp

theorem readString?_ne_punctuator : readString? cs ≠ some ⟨.punctuator d, text, rest⟩ := by
  rw [readString?.eq_def]
  split <;> simp [Option.bind_eq_some_iff]

/-- A punctuator is read from its character. -/
theorem read?_punctuator (h : read? c cs = some ⟨.punctuator d, text, rest⟩) :
    c = d ∧ text = [d] ∧ rest = cs ∧ isPunctuator d = true := by
  rcases read?_cases h with ⟨he, hc⟩ | ⟨_, -, -, he⟩ | ⟨-, he⟩ | ⟨token, -, hn, he⟩ | ⟨-, hs⟩
  · obtain ⟨ht, rfl, rfl⟩ := Read.mk.inj he
    obtain rfl := Token.punctuator.inj ht
    exact ⟨rfl, rfl, rfl, hc⟩
  · cases (Read.mk.inj he).1
  · cases (Read.mk.inj he).1
  · obtain ⟨rfl, -⟩ := Read.mk.inj he
    exact absurd hn ofNumber?_ne_punctuator
  · exact absurd hs readString?_ne_punctuator

/-- Among punctuators the scan only heeds brackets. -/
theorem isPlain_of_not_isBracket (hd : isPunctuator d = true)
    (hb : ¬(Token.punctuator d).IsBracket) : IsPlain d := by
  rw [IsBracket, IsParenthesis] at hb
  simp only [punctuator.injEq, not_or] at hb
  obtain ⟨⟨hopen, hclose⟩, hbrace, hunbrace⟩ := hb
  refine ⟨?_, ?_, hopen, hclose, hbrace, hunbrace⟩ <;> rintro rfl <;> cases hd

end Token

section Step

variable {c : Char} {here text rest : List Char} {t : Token} {s s' : OpenBrackets}

/-- **What the scan counts at a token.** -/
theorem scan_counts (h : Token.read? c here = some ⟨t, text, rest⟩) (ht : t.Counts s s') :
    scan .code 0 s.braces s.parens (c :: here) =
      (scan .code 0 s'.braces s'.parens rest).map (text ++ ·) := by
  cases ht with
  | plain hb =>
    refine scan_read h fun d hd => ?_
    obtain rfl : t = .punctuator d := hd
    obtain ⟨-, -, -, hpunctuator⟩ := Token.read?_punctuator h
    exact Token.isPlain_of_not_isBracket hpunctuator hb
  | opens =>
    obtain ⟨rfl, rfl, rfl, -⟩ := Token.read?_punctuator h
    simp [scan, tripleQuote, List.isPrefixOf]
  | closes =>
    obtain ⟨rfl, rfl, rfl, -⟩ := Token.read?_punctuator h
    simp [scan, tripleQuote, List.isPrefixOf]
  | inside ht =>
    rcases ht with rfl | rfl
    all_goals
      obtain ⟨rfl, rfl, rfl, -⟩ := Token.read?_punctuator h
      simp [scan, tripleQuote, List.isPrefixOf]
  | brace =>
    obtain ⟨rfl, rfl, rfl, -⟩ := Token.read?_punctuator h
    simp [scan, tripleQuote, List.isPrefixOf]
  | unbrace =>
    obtain ⟨rfl, rfl, rfl, -⟩ := Token.read?_punctuator h
    simp [scan, tripleQuote, List.isPrefixOf]

end Step

namespace Lexes

variable {p q : Position} {cs after : List Char} {ls : List Lexeme} {s s' : OpenBrackets}

/-- **The scan counts along lexemes.** -/
theorem scan_counts (h : Lexes p cs ls q after) (hc : ∀ l ∈ ls, CommentsBreak l.gap)
    (hs : Counts (ls.map (·.token)) s s') :
    scan .code 0 s.braces s.parens cs =
      (scan .code 0 s'.braces s'.parens after).map (textOf ls ++ ·) := by
  induction h generalizing s with
  | nil => 
    cases hs
    exact (map_nil_append _).symm
  | @cons p q c here rest after l ls hskip hr _ ih =>
    obtain ⟨hl, hls⟩ := List.forall_mem_cons.1 hc
    cases hs with
    | cons ht hs =>
      rw [scan_gap hskip hl, SelectionModel.scan_counts hr ht, ih hls hs, map_append_append,
        map_append_append]
      simp [textOf]

/-- **The scan of a definition takes its lexemes, and ends with the last.** -/
theorem scan_eq (h : Lexes p cs ls q after) (hc : ∀ l ∈ ls, CommentsBreak l.gap)
    (hs : InBracesBehindHeader (ls.map (·.token))) :
    scan .code 0 0 0 cs = some (textOf ls) := by
  obtain ⟨init, hinit, hcounts⟩ := hs.counts
  obtain ⟨first, final, rfl, rfl, hfinal⟩ := List.map_eq_append_iff.1 hinit
  obtain ⟨last, others, rfl, hlast, hothers⟩ := List.map_eq_cons_iff.1 hfinal
  obtain rfl := List.map_eq_nil_iff.1 hothers
  obtain ⟨r, mid, hfirst, hend⟩ := h.exists_of_append
  have hopen := hfirst.scan_counts (fun l hl => hc l (List.mem_append_left _ hl)) hcounts
  cases hend with
  | cons hskip hr _ =>
    rw [hlast] at hr
    obtain ⟨rfl, htext, rfl, -⟩ := Token.read?_punctuator hr
    have hgap := hc last (List.mem_append_right _ (List.mem_singleton_self last))
    rw [hopen, scan_gap hskip hgap]
    simp [scan, tripleQuote, List.isPrefixOf, textOf, htext]

end Lexes

end SelectionModel
