import Mathlib.Data.List.TakeDrop
import Mathlib.Tactic.SplitIfs
import SelectionModel.Language.Lexer

/-!
# Lexemes

A text is made of lexemes, the characters of its tokens, and of gaps between them. Here
the reading of tokens is set apart from the order in which it goes: what is passed over in
a gap, what a token is made of, and which lexemes lie between two places of a text.

* `Skips`, `exists_skips`: what is passed over in front of a token.
* `Token.append_of_read?`: a token and the rest make up the text.
* `Lexes`: the lexemes from one place of a text to another.
* `exists_lexes`: **tokens that are read from a text are those of lexemes.**
-/

namespace SelectionModel

/-- A token at a position. -/
structure PlacedToken where
  position : Position
  token : Token

/-- Tokens behind others. -/
def Tokens.behind (ts : Tokens) (xs : List PlacedToken) : Tokens :=
  xs.foldr (fun x ts => .token x.position x.token ts) ts

namespace Tokens

variable {ts : Tokens} {x : PlacedToken} {xs ys : List PlacedToken}

@[simp] theorem behind_nil : ts.behind [] = ts := rfl

@[simp] theorem behind_cons : ts.behind (x :: xs) = .token x.position x.token (ts.behind xs) := rfl

theorem behind_append : ts.behind (xs ++ ys) = (ts.behind ys).behind xs := List.foldr_append

end Tokens

/-! ## Gaps -/

/-- **What is passed over in a gap**, from one position to another. Inside of a comment
the position stays, and a comment ends with its line. -/
inductive Skips : Bool → Position → List Char → Position → Prop where
  | nil {p : Position} : Skips false p [] p
  | blank {p q : Position} {c : Char} {cs : List Char} : c = ' ' ∨ c = ',' →
    Skips false { p with column := p.column + 1 } cs q → Skips false p (c :: cs) q
  | tab {p q : Position} {cs : List Char} :
    Skips false { p with column := p.column + 8 } cs q → Skips false p ('\t' :: cs) q
  | mark {p q : Position} {c : Char} {cs : List Char} : c = '\r' ∨ c = '\uFEFF' →
    Skips false p cs q → Skips false p (c :: cs) q
  | newline {p q : Position} {cs : List Char} :
    Skips false ⟨p.line + 1, 1⟩ cs q → Skips false p ('\n' :: cs) q
  | hash {p q : Position} {cs : List Char} : Skips true p cs q → Skips false p ('#' :: cs) q
  | inside {p q : Position} {c : Char} {cs : List Char} : c ≠ '\r' → c ≠ '\n' →
    Skips true p cs q → Skips true p (c :: cs) q
  | ends {p q : Position} {c : Char} {cs : List Char} : c = '\r' ∨ c = '\n' →
    Skips false ⟨p.line + 1, 1⟩ cs q → Skips true p (c :: cs) q

/-- **What stands in front of a token is a gap.** -/
theorem exists_skips {inComment : Bool} {p q : Position} {c : Char} {cs rest : List Char}
    (h : Lexer.skipIgnored inComment p cs = (q, c :: rest)) :
    ∃ gap, Skips inComment p gap q ∧ cs = gap ++ c :: rest := by
  induction cs generalizing inComment p with
  | nil => cases inComment <;> cases h
  | cons d ds ih =>
    -- by what the first character is to the reader
    cases inComment with
    | true =>
      rw [Lexer.skipIgnored, if_pos rfl] at h
      split_ifs at h with hends
      · obtain ⟨gap, hg, rfl⟩ := ih h
        exact ⟨d :: gap, .ends hends hg, rfl⟩
      · obtain ⟨gap, hg, rfl⟩ := ih h
        exact ⟨d :: gap, .inside (mt .inl hends) (mt .inr hends) hg, rfl⟩
    | false =>
      rw [Lexer.skipIgnored, if_neg Bool.false_ne_true] at h
      split_ifs at h with hblank htab hmark hbreak hhash
      · obtain ⟨gap, hg, rfl⟩ := ih h
        exact ⟨d :: gap, .blank hblank hg, rfl⟩
      · obtain ⟨gap, hg, rfl⟩ := ih h
        exact ⟨d :: gap, htab ▸ .tab hg, rfl⟩
      · obtain ⟨gap, hg, rfl⟩ := ih h
        exact ⟨d :: gap, .mark hmark hg, rfl⟩
      · obtain ⟨gap, hg, rfl⟩ := ih h
        exact ⟨d :: gap, hbreak ▸ .newline hg, rfl⟩
      · obtain ⟨gap, hg, rfl⟩ := ih h
        exact ⟨d :: gap, hhash ▸ .hash hg, rfl⟩
      · obtain ⟨rfl, hc⟩ := Prod.mk.inj h
        exact ⟨[], .nil, hc⟩

/-! ## Tokens -/

namespace Token

theorem eq_of_stringBody? {escaped : Bool} {cs body rest : List Char}
    (h : stringBody? escaped cs = some (body, rest)) : cs = body ++ ['"'] ++ rest := by
  induction cs generalizing escaped body with
  | nil => cases h
  | cons c cs ih =>
    rw [stringBody?] at h
    split_ifs at h with hbreak hquote
    · obtain ⟨rfl, rfl⟩ := Prod.mk.inj (Option.some.inj h)
      rw [hquote.1]
      rfl
    · obtain ⟨⟨inner, last⟩, hb, he⟩ := Option.map_eq_some_iff.1 h
      obtain ⟨rfl, rfl⟩ := Prod.mk.inj he
      rw [ih hb]
      rfl

theorem eq_of_blockBody? {skip : Nat} {escaped : Bool} {cs body rest : List Char}
    (h : blockBody? skip escaped cs = some (body, rest)) :
    cs = body ++ ['"', '"', '"'] ++ rest := by
  induction cs generalizing skip escaped body with
  | nil => cases h
  | cons c cs ih =>
    have goesOn : ∀ {skip' : Nat} {escaped' : Bool},
        (blockBody? skip' escaped' cs).map (fun r => (c :: r.1, r.2)) = some (body, rest) →
        c :: cs = body ++ ['"', '"', '"'] ++ rest := by
      intro skip' escaped' h
      obtain ⟨⟨inner, last⟩, hb, he⟩ := Option.map_eq_some_iff.1 h
      obtain ⟨rfl, rfl⟩ := Prod.mk.inj he
      rw [ih hb]
      rfl
    cases skip with
    | succ skip => exact goesOn h
    | zero =>
      rw [blockBody?] at h
      simp only at h
      split_ifs at h with hquotes hescaped
      · exact goesOn h
      · obtain ⟨later, hl⟩ := List.isPrefixOf_iff_prefix.1 hquotes
        obtain ⟨rfl, rfl⟩ := List.cons.inj hl
        obtain ⟨rfl, rfl⟩ := Prod.mk.inj (Option.some.inj h)
        rfl
      · exact goesOn h

theorem append_of_readString? {cs : List Char} {r : Read} (h : readString? cs = some r) :
    '"' :: cs = r.lexeme ++ r.rest := by
  rw [readString?.eq_def] at h
  split at h
  · obtain ⟨⟨body, rest⟩, hb, rfl⟩ := Option.map_eq_some_iff.1 h
    rw [eq_of_blockBody? hb]
    rfl
  · obtain ⟨⟨body, rest⟩, hb, hs⟩ := Option.bind_eq_some_iff.1 h
    obtain ⟨value, -, rfl⟩ := Option.map_eq_some_iff.1 hs
    rw [eq_of_stringBody? hb]
    rfl

/-- **How a token is read**, by its first character. -/
theorem read?_cases {c : Char} {cs : List Char} {r : Read} (h : read? c cs = some r) :
    r = ⟨.punctuator c, [c], cs⟩ ∧ isPunctuator c = true ∨
    (∃ rest, c = '.' ∧ cs = '.' :: '.' :: rest ∧ r = ⟨.ellipsis, ['.', '.', '.'], rest⟩) ∨
    (isNameStart c = true ∧
      r = ⟨.name (String.ofList (c :: cs.takeWhile isNameChar)), c :: cs.takeWhile isNameChar,
        cs.dropWhile isNameChar⟩) ∨
    (∃ token, (c = '-' ∨ c.isDigit = true) ∧
      ofNumber? (c :: cs.takeWhile fun c => !endsNumber c) = some token ∧
      r = ⟨token, c :: cs.takeWhile fun c => !endsNumber c,
        cs.dropWhile fun c => !endsNumber c⟩) ∨
    c = '"' ∧ readString? cs = some r := by
  rw [read?.eq_def] at h
  by_cases hpunctuator : isPunctuator c = true
  · rw [if_pos hpunctuator] at h
    exact .inl ⟨(Option.some.inj h).symm, hpunctuator⟩
  rw [if_neg hpunctuator] at h
  by_cases hdot : c = '.'
  · rw [if_pos hdot] at h
    split at h
    next rest => exact .inr (.inl ⟨rest, hdot, rfl, (Option.some.inj h).symm⟩)
    · cases h
  rw [if_neg hdot] at h
  by_cases hname : isNameStart c = true
  · rw [if_pos hname, List.span_eq_takeWhile_dropWhile] at h
    exact .inr (.inr (.inl ⟨hname, (Option.some.inj h).symm⟩))
  rw [if_neg hname] at h
  by_cases hnumber : c = '-' ∨ c.isDigit = true
  · rw [if_pos hnumber, List.span_eq_takeWhile_dropWhile] at h
    obtain ⟨token, ht, rfl⟩ := Option.map_eq_some_iff.1 h
    exact .inr (.inr (.inr (.inl ⟨token, hnumber, ht, rfl⟩)))
  rw [if_neg hnumber] at h
  by_cases hquote : c = '"'
  · rw [if_pos hquote] at h
    exact .inr (.inr (.inr (.inr ⟨hquote, h⟩)))
  · rw [if_neg hquote] at h
    cases h

/-- **A token and what follows it make up the text.** -/
theorem append_of_read? {c : Char} {cs : List Char} {r : Read} (h : read? c cs = some r) :
    c :: cs = r.lexeme ++ r.rest := by
  rcases read?_cases h with ⟨rfl, -⟩ | ⟨rest, rfl, rfl, rfl⟩ | ⟨-, rfl⟩ | ⟨token, -, -, rfl⟩ | ⟨rfl, hs⟩
  · rfl
  · rfl
  · rw [List.cons_append, List.takeWhile_append_dropWhile]
  · rw [List.cons_append, List.takeWhile_append_dropWhile]
  · exact append_of_readString? hs

end Token

/-! ## Lexemes of a text -/

/-- A token in a text, with the gap in front of it. -/
structure Lexeme extends PlacedToken where
  gap : List Char
  text : List Char

/-- The text that lexemes make up. -/
def textOf (ls : List Lexeme) : List Char := ls.flatMap fun l => l.gap ++ l.text

/-- **The lexemes from one place of a text to another.** A place is a position and what is
left of the text there, so that each token is read as it is in the whole text. -/
inductive Lexes : Position → List Char → List Lexeme → Position → List Char → Prop where
  | nil {p : Position} {cs : List Char} : Lexes p cs [] p cs
  | cons {p q : Position} {c : Char} {cs rest after : List Char} {l : Lexeme}
      {ls : List Lexeme} :
    Skips false p l.gap l.position → Token.read? c cs = some ⟨l.token, l.text, rest⟩ →
    Lexes (Lexer.advance l.position l.text) rest ls q after →
    Lexes p (l.gap ++ c :: cs) (l :: ls) q after

namespace Lexes

variable {p q : Position} {cs after : List Char} {ls ms : List Lexeme}

/-- **The lexemes make up the text between the places.** -/
theorem eq_append (h : Lexes p cs ls q after) : cs = textOf ls ++ after := by
  induction h with
  | nil => rfl
  | cons _ hr _ ih =>
    have htext := Token.append_of_read? hr
    rw [htext, ih]
    simp [textOf]

/-- The first lexeme, and the others behind it. -/
theorem exists_of_cons {l : Lexeme} (h : Lexes p cs (l :: ls) q after) :
    ∃ c here rest, cs = l.gap ++ c :: here ∧ Skips false p l.gap l.position ∧
      Token.read? c here = some ⟨l.token, l.text, rest⟩ ∧
      Lexes (Lexer.advance l.position l.text) rest ls q after := by
  cases h with
  | cons hs hr h => exact ⟨_, _, _, rfl, hs, hr, h⟩

/-- Lexemes in two parts meet at a place between them. -/
theorem exists_of_append (h : Lexes p cs (ls ++ ms) q after) :
    ∃ r mid, Lexes p cs ls r mid ∧ Lexes r mid ms q after := by
  induction ls generalizing p cs with
  | nil => exact ⟨p, cs, .nil, h⟩
  | cons l ls ih =>
    cases h with
    | cons hs hr h =>
      obtain ⟨r, mid, hfirst, hlast⟩ := ih h
      exact ⟨r, mid, .cons hs hr hfirst, hlast⟩

end Lexes

/-- **Tokens that are read from a text are those of lexemes.** -/
theorem exists_lexes {bound left : Nat} {p : Position} {cs : List Char} {ts : Tokens}
    {xs : List PlacedToken} (h : Lexer.tokensFrom bound left p cs = ts.behind xs) :
    ∃ ls q after, Lexes p cs ls q after ∧ ls.map Lexeme.toPlacedToken = xs := by
  induction xs generalizing bound left p cs with
  | nil => exact ⟨[], p, cs, .nil, rfl⟩
  | cons x xs ih =>
    cases bound with
    | zero => cases h
    | succ bound =>
      rw [Lexer.tokensFrom] at h
      obtain ⟨r, mid, hskip⟩ : ∃ r mid, Lexer.skipIgnored false p cs = (r, mid) := ⟨_, _, rfl⟩
      rw [hskip] at h
      cases mid with
      | nil => cases h
      | cons c rest =>
        obtain ⟨gap, hgap, rfl⟩ := exists_skips hskip
        simp only at h
        split at h
        · cases h
        next read hread =>
        split at h
        · cases h
        next left' hleft =>
        rw [Tokens.behind_cons] at h
        injection h with hposition htoken hrest
        obtain ⟨ls, q, after, hls, rfl⟩ := ih hrest
        refine ⟨⟨⟨r, read.token⟩, gap, read.lexeme⟩ :: ls, q, after, ?_, ?_⟩
        · exact .cons (l := ⟨⟨r, read.token⟩, gap, read.lexeme⟩) hgap hread hls
        · rw [List.map_cons, hposition, htoken]

end SelectionModel
