import SelectionModel.Document.Basic
import SelectionModel.Proofs.Source.Counting
import SelectionModel.Proofs.Source.Positions

/-!
# The text of each definition

A document keeps its text, and the text of a definition is cut from it: the line index
finds where the definition was reported, and a scan finds the brace that closes it. Both
have rules of their own, which are not those of the reader of tokens.

* `Definition.Spans`: the lexemes of a definition in a text.
* `Document.exists_spans`: each definition of a document has these.
* `Document.definition_source_exact`: **the source of a definition is what its lexemes
  make up**, and where.
* `tab_misplaces_source`: a tab in front of a definition.
-/

namespace SelectionModel

open DefinitionText

namespace Grammar

variable {α β : Type}

/-! ## Where a definition stands -/

/-- What a rule gives back. -/
def Gives (g : Grammar α) (P : α → Prop) : Prop :=
  ∀ ⦃ts : Tokens⦄ ⦃a : α⦄ ⦃ts' : Tokens⦄, g ts = .ok (a, ts') → P a

/-- A rule made of two others gives back what the second does. -/
theorem Gives.bind {g : Grammar α} {f : α → Grammar β} {P : β → Prop} (h : ∀ a, (f a).Gives P) :
    (g >>= f).Gives P := by
  intro ts b ts' hb
  obtain ⟨a, mid, -, hf⟩ := bind_eq_ok.1 hb
  exact h a hf

theorem gives_pure {a : α} {P : α → Prop} (h : P a) : (pure a : Grammar α).Gives P := by
  intro ts b ts' hp
  obtain ⟨rfl, -⟩ := Prod.mk.inj (Except.ok.inj hp)
  exact h

theorem operation_position (p : Position) (kind : OperationKind) (bound : Nat) :
    (operation p kind bound).Gives (·.position = p) := by
  rw [operation]
  refine .bind fun t => ?_
  split
  · exact .bind fun _ => .bind fun n => .bind fun vs => .bind fun ds => .bind fun _ => gives_pure rfl
  · exact .bind fun n => .bind fun vs => .bind fun ds => .bind fun _ => gives_pure rfl

theorem fragment_position (p : Position) (bound : Nat) :
    (fragment p bound).Gives (·.position = p) := by
  rw [fragment]
  exact .bind fun n => .bind fun _ => .bind fun condition => .bind fun ds => .bind fun _ =>
    gives_pure rfl

/-- **A definition stands where its first token does.** -/
theorem definition_position {bound : Nat} {ts ts' : Tokens} {x : Definition}
    (h : definition bound ts = .ok (x, ts')) : x.position = ts.position := by
  rw [definition] at h
  obtain ⟨p, mid, hp, hrest⟩ := bind_eq_ok.1 h
  obtain ⟨rfl, rfl⟩ := Prod.mk.inj (Except.ok.inj hp)
  have hgives : ∀ {g : Grammar Definition}, g.Gives (·.position = ts.position) →
      g ts = .ok (x, ts') → x.position = ts.position := fun hg hx => hg hx
  refine hgives (.bind fun t => ?_) hrest
  split
  · exact .bind fun selections => gives_pure rfl
  · exact .bind fun _ => operation_position _ _ _
  · exact .bind fun _ => operation_position _ _ _
  · exact .bind fun _ => operation_position _ _ _
  · exact .bind fun _ => fragment_position _ _
  · intro ts a ts' hfail
    cases hfail

end Grammar

/-! ## Definitions in a text -/

/-- **The lexemes of a definition in a text**: those that the grammar takes for it, behind
the lexemes of other definitions. The last of them is the closing brace. -/
structure Definition.Spans (x : Definition) (text : List Char) (earlier : List Lexeme)
    (first : Lexeme) (others : List Lexeme) (after : List Char) : Prop where
  lexes : ∃ q, Lexes ⟨1, 1⟩ text (earlier ++ first :: others) q after
  taken : ∃ bound rest,
    Tokens.ofText text =
        rest.behind ((earlier ++ first :: others).map Lexeme.toPlacedToken) ∧
      Grammar.definition bound (rest.behind ((first :: others).map Lexeme.toPlacedToken)) =
        .ok (x, rest)
  closed : InBracesBehindHeader ((first :: others).map (·.token))

namespace Definition.Spans

variable {x : Definition} {text after : List Char} {earlier others : List Lexeme}
  {first : Lexeme}

/-- The lexemes of a definition make up a part of the text. -/
theorem text_eq (h : x.Spans text earlier first others after) :
    text = (textOf earlier ++ first.gap) ++ (first.text ++ textOf others ++ after) := by
  obtain ⟨q, hlexes⟩ := h.lexes
  rw [hlexes.eq_append]
  simp [textOf]

theorem position_eq (h : x.Spans text earlier first others after) : x.position = first.position := by
  obtain ⟨bound, rest, -, hx⟩ := h.taken
  exact Grammar.definition_position hx

/-- Behind its gap, the first lexeme is read in the same way. -/
theorem lexes_first (h : x.Spans text earlier first others after) :
    ∃ q, Lexes first.position (first.text ++ textOf others ++ after)
      ({ first with gap := [] } :: others) q after := by
  obtain ⟨q, hlexes⟩ := h.lexes
  obtain ⟨p, mid, -, hlexes⟩ := hlexes.exists_of_append
  obtain ⟨c, here, rest, -, -, hr, hothers⟩ := hlexes.exists_of_cons
  have hhere : c :: here = first.text ++ textOf others ++ after := by
    rw [Token.append_of_read? hr, hothers.eq_append, List.append_assoc]
  rw [← hhere]
  exact ⟨q, .cons (l := { first with gap := [] }) .nil hr hothers⟩

/-- **The scan from the first lexeme on finds the text of the definition** unless a comment
in it goes on for the scan. -/
theorem scan_eq (h : x.Spans text earlier first others after)
    (hc : ∀ l ∈ others, CommentsBreak l.gap) :
    scan .code 0 0 0 (first.text ++ textOf others ++ after) =
      some (first.text ++ textOf others) := by
  obtain ⟨q, hlexes⟩ := h.lexes_first
  have hgap : CommentsBreak [] := fun before after he => by simp at he
  have hscan := hlexes.scan_eq (List.forall_mem_cons.2 ⟨hgap, hc⟩) h.closed
  simpa [textOf] using hscan

/-- **The definition is reported where its first lexeme is counted.** -/
theorem reported (h : x.Spans text earlier first others after)
    (hr : ∀ l ∈ earlier ++ [first], ReturnsOutsideComments l.gap)
    (hc : ∀ c ∈ lastLine (textOf earlier ++ first.gap), IsCounted c) :
    x.position = Position.behind (textOf earlier ++ first.gap) := by
  obtain ⟨hearlier, hfirst⟩ := List.forall_mem_append.1 hr
  obtain ⟨q, hlexes⟩ := h.lexes
  obtain ⟨p, mid, hbefore, hlexes⟩ := hlexes.exists_of_append
  obtain ⟨-, -, -, -, hskip, -, -⟩ := hlexes.exists_of_cons
  have hp : Reported (textOf earlier) p := hbefore.reported .start hearlier
  have hq := hskip.reported hp (hfirst first (List.mem_singleton_self first))
  rw [h.position_eq]
  exact hq.eq_behind hc

end Definition.Spans

namespace Document

variable {file : Option String} {text : List Char} {d : Document} {x : Definition}

theorem ofText_eq_ok (h : ofText file text = .ok d) :
    d.text = text ∧ d.index = LineIndex.ofText text ∧ ∃ bound rest,
      Grammar.document (Grammar.definition bound) bound (Tokens.ofText text) =
        .ok (d.definitions, rest) := by
  rw [ofText, parseExecutable, Grammar.parse] at h
  split at h
  next definitions hparse =>
    obtain rfl := Except.ok.inj h
    split at hparse
    next definitions rest hdocument =>
      obtain rfl := Except.ok.inj hparse
      exact ⟨rfl, rfl, _, rest, hdocument⟩
    · cases hparse
  · cases h

/-- Each definition of a document has its lexemes in the text. -/
theorem exists_spans (h : ofText file text = .ok d) (hx : x ∈ d.definitions) :
    ∃ earlier first others after, x.Spans text earlier first others after := by
  obtain ⟨-, -, bound, last, hdocument⟩ := ofText_eq_ok h
  obtain ⟨before, mid, rest, htokens, hrule⟩ :=
    Grammar.exists_of_mem_document (Grammar.takes_definition bound) hdocument hx
  obtain ⟨xs, rfl, hclosed⟩ := Grammar.takes_definition bound hrule
  have hread : Tokens.ofText text = rest.behind (before ++ xs) := by
    rw [htokens, Tokens.behind_append]
  obtain ⟨ls, q, after, hlexes, hls⟩ := exists_lexes hread
  obtain ⟨earlier, own, rfl, rfl, rfl⟩ := List.map_eq_append_iff.1 hls
  cases own with
  | nil =>
    obtain ⟨init, hinit, -⟩ := hclosed.counts
    simp at hinit
  | cons first others =>
    refine ⟨earlier, first, others, after, ⟨q, hlexes⟩, ⟨bound, rest, ?_, hrule⟩, ?_⟩
    · rw [hread, List.map_append]
    · simpa [Function.comp_def] using hclosed

/-- The source of a definition is its text where its position is counted and the scan heeds
all of it. -/
theorem source_of_spans {earlier others : List Lexeme} {first : Lexeme} {after : List Char}
    (h : ofText file text = .ok d) (hspans : x.Spans text earlier first others after)
    (hreturns : ∀ l ∈ earlier ++ [first], ReturnsOutsideComments l.gap)
    (hcounted : ∀ c ∈ lastLine (textOf earlier ++ first.gap), IsCounted c)
    (hbreaks : ∀ l ∈ others, CommentsBreak l.gap) :
    d.definitionSource? x.position = some (String.ofList (first.text ++ textOf others)) := by
  have hposition := hspans.reported hreturns hcounted
  have hscan := hspans.scan_eq hbreaks
  have hsplit := hspans.text_eq
  obtain ⟨htext, hindex, -⟩ := ofText_eq_ok h
  generalize first.text ++ textOf others ++ after = here at hscan hsplit
  cases here with
  | nil => cases hscan
  | cons c cs =>
    rw [definitionSource?, hposition, hindex, htext, hsplit, LineIndex.offset?_behind,
      Option.bind_some, definitionText?, Text.dropBytes_append, Option.bind_some, hscan]
    rfl

/-- **Each definition has its lexemes in the text, and its source is what these make up**,
from the first character of the first token through the closing brace. For that, no comment
in the gaps in front of it ends with a carriage return, each character in front of it on its
line is counted as one column, and each comment in it ends with a line break. -/
theorem definition_source_exact (h : ofText file text = .ok d) (hx : x ∈ d.definitions) :
    ∃ earlier first others after, x.Spans text earlier first others after ∧
      ((∀ l ∈ earlier ++ [first], ReturnsOutsideComments l.gap) →
        (∀ c ∈ lastLine (textOf earlier ++ first.gap), IsCounted c) →
        (∀ l ∈ others, CommentsBreak l.gap) →
        d.definitionSource? x.position = some (String.ofList (first.text ++ textOf others))) := by
  obtain ⟨earlier, first, others, after, hspans⟩ := exists_spans h hx
  exact ⟨earlier, first, others, after, hspans, source_of_spans h hspans⟩

end Document

/-! ## Texts of counted characters -/

/-- In texts of counted characters each gap is heeded and counted. -/
theorem Lexes.gap_of_counted {p q : Position} {cs after : List Char} {ls : List Lexeme}
    (h : Lexes p cs ls q after) (hc : ∀ c ∈ cs, IsCounted c) :
    ∀ l ∈ ls, ReturnsOutsideComments l.gap ∧ CommentsBreak l.gap := by
  induction h with
  | nil => exact fun _ hl => absurd hl List.not_mem_nil
  | @cons _ _ c here rest _ l ls hskip hr _ ih =>
    rw [Token.append_of_read? hr] at hc
    obtain ⟨hgap, hhere⟩ := List.forall_mem_append.1 hc
    obtain ⟨-, hrest⟩ := List.forall_mem_append.1 hhere
    have hreturn : '\r' ∉ l.gap := fun hin => (hgap _ hin).2.1 rfl
    refine List.forall_mem_cons.2 ⟨⟨?_, (hskip.commentsBreak hreturn).1⟩, ih hrest⟩
    intro before comment after he
    exact absurd (by simp [he]) hreturn

/-- In such a text the definitions are reported where they are counted, and all of them is
heeded. -/
theorem Definition.Spans.of_counted {x : Definition} {text after : List Char}
    {earlier others : List Lexeme} {first : Lexeme}
    (h : x.Spans text earlier first others after) (hc : ∀ c ∈ text, IsCounted c) :
    (∀ l ∈ earlier ++ [first], ReturnsOutsideComments l.gap) ∧
      (∀ c ∈ lastLine (textOf earlier ++ first.gap), IsCounted c) ∧
      ∀ l ∈ others, CommentsBreak l.gap := by
  obtain ⟨q, hlexes⟩ := h.lexes
  obtain ⟨hearlier, hown⟩ := List.forall_mem_append.1 (hlexes.gap_of_counted hc)
  obtain ⟨hfirst, hothers⟩ := List.forall_mem_cons.1 hown
  refine ⟨?_, fun c hline => hc c ?_, fun l hl => (hothers l hl).2⟩
  · refine List.forall_mem_append.2 ⟨fun l hl => (hearlier l hl).1, fun l hl => ?_⟩
    exact List.mem_singleton.1 hl ▸ hfirst.1
  · rw [h.text_eq]
    exact List.mem_append_left _ (mem_of_mem_lastLine hline)

namespace Sample

/-- A text of two definitions. -/
def twoDefinitions : List Char := "query Q { a }\nfragment F on A { x }".toList

/-- A definition behind a tab. -/
def tabbed : List Char := "\tquery Q { a }".toList

end Sample

theorem sample_source_exact :
    ∃ d x, Document.ofText none Sample.twoDefinitions = .ok d ∧ x ∈ d.definitions ∧
      ∃ earlier first others after,
        x.Spans Sample.twoDefinitions earlier first others after ∧
          first.text ++ textOf others = "fragment F on A { x }".toList ∧
          d.definitionSource? x.position = some (String.ofList (first.text ++ textOf others)) := by
  obtain ⟨d, hd, hsources⟩ := Except.exists_of_any
    (x := Document.ofText none Sample.twoDefinitions)
    (p := fun d => d.definitions.map (fun x => d.definitionSource? x.position) =
      [some "query Q { a }", some "fragment F on A { x }"])
    (by decide +kernel)
  obtain ⟨first, later, hfirst, -, hlater⟩ := List.map_eq_cons_iff.1 hsources
  obtain ⟨x, last, rfl, hsource, -⟩ := List.map_eq_cons_iff.1 hlater
  have hx : x ∈ d.definitions := by simp [hfirst]
  obtain ⟨earlier, first, others, after, hspans, hexact⟩ := Document.definition_source_exact hd hx
  have hall : Sample.twoDefinitions.all (fun c => decide (IsCounted c)) = true := by decide +kernel
  obtain ⟨hreturns, hline, hbreaks⟩ := hspans.of_counted fun c hc =>
    of_decide_eq_true (List.all_eq_true.1 hall c hc)
  have hfound := hexact hreturns hline hbreaks
  refine ⟨d, x, hd, hx, earlier, first, others, after, hspans, ?_, hfound⟩
  rw [hsource, Option.some.injEq] at hfound
  rw [hfound, String.toList_ofList]

/-- **Behind a tab the source of a definition is not its text**: the tab is reported as
eight columns and counted as one. -/
theorem tab_misplaces_source :
    ∃ d x, Document.ofText none Sample.tabbed = .ok d ∧ x ∈ d.definitions ∧
      d.definitionSource? x.position = some " { a }" ∧
      ∀ earlier first others after, x.Spans Sample.tabbed earlier first others after →
        d.definitionSource? x.position ≠ some (String.ofList (first.text ++ textOf others)) := by
  obtain ⟨d, hd, hsources⟩ := Except.exists_of_any
    (x := Document.ofText none Sample.tabbed)
    (p := fun d => d.definitions.map (fun x => d.definitionSource? x.position) = [some " { a }"])
    (by decide +kernel)
  obtain ⟨x, others, hx, hsource, -⟩ := List.map_eq_cons_iff.1 hsources
  refine ⟨d, x, hd, by simp [hx], hsource, fun earlier first others after hspans he => ?_⟩
  -- no token starts with a blank
  obtain ⟨q, hlexes⟩ := hspans.lexes_first
  obtain ⟨c, here, rest, htext, -, hr, -⟩ := hlexes.exists_of_cons
  rw [hsource, Option.some.injEq] at he
  have hblank : ' ' :: "{ a }".toList = first.text ++ textOf others := by
    rw [← String.toList_ofList (l := first.text ++ textOf others), ← he]
    rfl
  rw [← hblank] at htext
  obtain ⟨rfl, -⟩ := List.cons.inj htext
  cases hr

end SelectionModel
