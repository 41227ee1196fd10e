import SelectionModel.Language.Executable
import SelectionModel.Proofs.Language.Rules

/-!
# Brackets in definitions

The grammar fits every parenthesis and every brace of a definition with another one.
Parentheses are not nested: braces may stand in them, as in objects. Outside of
parentheses braces only belong to selection sets, and the last of a definition is the one
that closes it.

* `Balanced`: tokens with their parentheses, and perhaps with nested selection sets.
* `InBraces`, `InBracesBehindHeader`: the tokens of selection sets and of definitions.
* `takes_selections`: selections and selection sets.
* `takes_definition`: **a definition is balanced tokens without braces, and then a
  selection set.**
-/

namespace SelectionModel

/-! ## Tokens with brackets -/

namespace Token

def IsParenthesis (t : Token) : Prop := t = .punctuator '(' ∨ t = .punctuator ')'

/-- A parenthesis or a brace. -/
def IsBracket (t : Token) : Prop :=
  t.IsParenthesis ∨ t = .punctuator '\x7b' ∨ t = .punctuator '\x7d'

instance (t : Token) : Decidable t.IsParenthesis := inferInstanceAs (Decidable (_ ∨ _))

instance (t : Token) : Decidable t.IsBracket := inferInstanceAs (Decidable (_ ∨ _))

theorem not_isBracket_name (s : String) : ¬(name s).IsBracket := by
  simp [IsBracket, IsParenthesis]

end Token

/-- Tokens without parentheses. -/
def NoParentheses (xs : List Token) : Prop := ∀ t ∈ xs, ¬t.IsParenthesis

/-- **Tokens whose parentheses match**, and whose braces do outside of these. Without
nesting, there are no braces outside of parentheses. -/
inductive Balanced (nesting : Bool) : List Token → Prop where
  | nil : Balanced nesting []
  | plain {t : Token} {xs : List Token} : ¬t.IsBracket → Balanced nesting xs →
    Balanced nesting (t :: xs)
  | parentheses {inner xs : List Token} : NoParentheses inner → Balanced nesting xs →
    Balanced nesting (.punctuator '(' :: (inner ++ .punctuator ')' :: xs))
  | braces {inner xs : List Token} : nesting = true → Balanced nesting inner →
    Balanced nesting xs →
    Balanced nesting (.punctuator '\x7b' :: (inner ++ .punctuator '\x7d' :: xs))

theorem closed_noParentheses : Grammar.Closed NoParentheses where
  nil := fun _ h => absurd h List.not_mem_nil
  append _ _ hx hy := List.forall_mem_append.2 ⟨hx, hy⟩

theorem NoParentheses.cons {t : Token} {xs : List Token} (ht : ¬t.IsParenthesis)
    (h : NoParentheses xs) : NoParentheses (t :: xs) :=
  List.forall_mem_cons.2 ⟨ht, h⟩

namespace Balanced

variable {nesting : Bool} {xs ys : List Token}

theorem append (hx : Balanced nesting xs) (hy : Balanced nesting ys) :
    Balanced nesting (xs ++ ys) := by
  induction hx with
  | nil => exact hy
  | plain ht _ ih => exact .plain ht ih
  | parentheses hi _ ih =>
    rw [List.cons_append, List.append_assoc, List.cons_append]
    exact .parentheses hi ih
  | braces hn hi _ _ ih =>
    rw [List.cons_append, List.append_assoc, List.cons_append]
    exact .braces hn hi ih

theorem closed (nesting : Bool) : Grammar.Closed (Balanced nesting) := ⟨.nil, fun _ _ => append⟩

/-- Where nesting is allowed there need not be any. -/
theorem nested (h : Balanced false xs) : Balanced true xs := by
  induction h with
  | nil => exact .nil
  | plain ht _ ih => exact .plain ht ih
  | parentheses hi _ ih => exact .parentheses hi ih
  | braces hn _ _ _ _ => cases hn

end Balanced

/-- Tokens in braces. -/
def InBraces (xs : List Token) : Prop :=
  ∃ inner, Balanced true inner ∧ xs = .punctuator '\x7b' :: (inner ++ [.punctuator '\x7d'])

theorem InBraces.balanced {xs : List Token} (h : InBraces xs) : Balanced true xs := by
  obtain ⟨inner, hinner, rfl⟩ := h
  exact .braces rfl hinner .nil

/-- Tokens without braces outside of parentheses, and then some in braces. -/
def InBracesBehindHeader (xs : List Token) : Prop :=
  ∃ header body, Balanced false header ∧ InBraces body ∧ xs = header ++ body

theorem InBracesBehindHeader.append {xs ys : List Token} (hx : Balanced false xs)
    (hy : InBracesBehindHeader ys) : InBracesBehindHeader (xs ++ ys) := by
  obtain ⟨header, body, hheader, hbody, rfl⟩ := hy
  exact ⟨xs ++ header, body, hx.append hheader, hbody, (List.append_assoc _ _ _).symm⟩

namespace Grammar

/-! ## Values and types -/

section Values

variable {c : Char}

theorem takes_name_noParentheses : name.Takes NoParentheses :=
  takes_name.mono fun _ ⟨s, hs⟩ =>
    hs ▸ closed_noParentheses.nil.cons fun h => Token.not_isBracket_name s (.inl h)

theorem takes_punctuator_noParentheses (hc : ¬(Token.punctuator c).IsParenthesis) :
    (punctuator c).Takes NoParentheses :=
  takes_punctuator.mono fun _ hs => hs ▸ closed_noParentheses.nil.cons hc

/-- A value around lists and objects. -/
theorem takes_value_succ {constant : Bool} {bound : Nat}
    (hitems : (items constant bound).Takes NoParentheses)
    (hentries : (entries constant bound).Takes NoParentheses) :
    (value constant (bound + 1)).Takes NoParentheses := by
  have leaf : ∀ {t : Token} {v : Value}, ¬t.IsParenthesis →
      TakesAt (some t) (discard next >>= fun _ => pure v) NoParentheses :=
    fun ht => takesAt_next (takes_pure _ closed_noParentheses.nil) fun _ h => h.cons ht
  rw [value]
  refine takes_peek fun t => ?_
  -- the first seven tokens are values by themselves
  split
  · exact leaf (by simp [Token.IsParenthesis])
  · exact leaf (by simp [Token.IsParenthesis])
  · exact leaf (by simp [Token.IsParenthesis])
  · exact leaf (by simp [Token.IsParenthesis])
  · exact leaf (by simp [Token.IsParenthesis])
  · exact leaf (by simp [Token.IsParenthesis])
  · exact leaf (by simp [Token.IsParenthesis])
  · cases constant with
    | true => exact takes_fail.at _
    | false => exact takesAt_next takes_name_noParentheses.bind_pure fun _ h => h.cons (by decide)
  · exact takesAt_next hitems.bind_pure fun _ h => h.cons (by decide)
  · exact takesAt_next hentries.bind_pure fun _ h => h.cons (by decide)
  · exact takes_fail.at _

/-- Values, and the rest of lists and of objects. -/
theorem takes_value_rules (constant : Bool) (bound : Nat) :
    (value constant bound).Takes NoParentheses ∧ (items constant bound).Takes NoParentheses ∧
      (entries constant bound).Takes NoParentheses := by
  have happend := closed_noParentheses.append
  induction bound with
  | zero => exact ⟨takes_fail, takes_fail, takes_fail⟩
  | succ bound ih =>
    obtain ⟨hvalue, hitems, hentries⟩ := ih
    refine ⟨takes_value_succ hitems hentries, ?_, ?_⟩
    · rw [items]
      refine takes_skipPunctuator (takes_pure _ closed_noParentheses.nil)
        (fun _ h => h.cons (by decide)) ?_
      exact hvalue.bind (fun v => hitems.bind_pure) happend
    · rw [entries]
      refine takes_skipPunctuator (takes_pure _ closed_noParentheses.nil)
        (fun _ h => h.cons (by decide)) ?_
      refine takes_name_noParentheses.bind (fun n => ?_) happend
      refine (takes_punctuator_noParentheses (by decide)).bind (fun _ => ?_) happend
      exact hvalue.bind (fun v => hentries.bind_pure) happend

theorem takes_value (constant : Bool) (bound : Nat) : (value constant bound).Takes NoParentheses :=
  (takes_value_rules constant bound).1

/-- A rule that looks for an exclamation mark. -/
theorem takes_exclamation {β : Type} {f : Bool → β} :
    (skipPunctuator '!' >>= fun b => (pure (f b) : Grammar β)).Takes NoParentheses :=
  takes_skipPunctuator (takes_pure _ closed_noParentheses.nil) (fun _ h => h.cons (by decide))
    (takes_pure _ closed_noParentheses.nil)

theorem takes_typeRef (bound : Nat) : (typeRef bound).Takes NoParentheses := by
  have happend := closed_noParentheses.append
  induction bound with
  | zero => exact takes_fail
  | succ bound ih =>
    rw [typeRef]
    refine takes_skipPunctuator ?_ (fun _ h => NoParentheses.cons (by decide) h) ?_
    · refine ih.bind (fun inner => ?_) happend
      exact (takes_punctuator_noParentheses (by decide)).bind (fun _ => takes_exclamation) happend
    · exact takes_name_noParentheses.bind (fun n => takes_exclamation) happend

theorem takes_argument (bound : Nat) : (argument bound).Takes NoParentheses := by
  have happend := closed_noParentheses.append
  refine takes_name_noParentheses.bind (fun n => ?_) happend
  refine (takes_punctuator_noParentheses (by decide)).bind (fun _ => ?_) happend
  exact (takes_value false bound).bind_pure

theorem takes_variableDefinition (bound : Nat) :
    (variableDefinition bound).Takes NoParentheses := by
  have happend := closed_noParentheses.append
  refine (takes_punctuator_noParentheses (by decide)).bind (fun _ => ?_) happend
  refine takes_name_noParentheses.bind (fun n => ?_) happend
  refine (takes_punctuator_noParentheses (by decide)).bind (fun _ => ?_) happend
  refine (takes_typeRef bound).bind (fun t => ?_) happend
  refine takes_skipPunctuator ?_ (fun _ h => NoParentheses.cons (by decide) h) ?_
  · exact (takes_value true bound).map.bind_pure
  · exact Takes.bind_pure (takes_pure _ closed_noParentheses.nil)

end Values

/-! ## Selections -/

section Selections

variable {nesting : Bool} {c : Char}

theorem takes_name_balanced : name.Takes (Balanced nesting) :=
  takes_name.mono fun _ ⟨_, hs⟩ => hs ▸ .plain (Token.not_isBracket_name _) .nil

theorem takes_keyword_balanced {s : String} : (keyword s).Takes (Balanced nesting) :=
  takes_keyword.mono fun _ hs => hs ▸ .plain (Token.not_isBracket_name _) .nil

theorem takes_punctuator_balanced (hc : ¬(Token.punctuator c).IsBracket) :
    (punctuator c).Takes (Balanced nesting) :=
  takes_punctuator.mono fun _ hs => hs ▸ .plain hc .nil

/-- A rule in parentheses, or nothing. -/
theorem takes_optionalParentheses {α : Type} {rule : Grammar α}
    (hr : rule.Takes NoParentheses) (bound : Nat) :
    (optionalBrackets '(' ')' rule bound).Takes (Balanced nesting) := by
  refine (takes_optionalBrackets closed_noParentheses hr bound).mono fun xs hxs => ?_
  rcases hxs with rfl | ⟨inner, rfl, hinner⟩
  · exact .nil
  · exact .parentheses hinner .nil

theorem takes_directives (bound : Nat) : (directives bound).Takes (Balanced nesting) := by
  have happend := (Balanced.closed nesting).append
  refine takes_whileAt (Balanced.closed nesting) takes_atPunctuator ?_ bound
  refine takes_position.bind_nil fun p => ?_
  refine (takes_punctuator_balanced (by decide)).bind (fun _ => ?_) happend
  refine takes_name_balanced.bind (fun n => ?_) happend
  exact (takes_optionalParentheses (takes_argument bound) bound).bind_pure

variable {bound : Nat}

/-- A field behind its names. -/
theorem takes_field_rest (hset : (selectionSet bound).Takes InBraces)
    (head : List (String × Value) → List Directive → FieldHead) :
    (do
      let args ← arguments bound
      let ds ← directives bound
      return Selection.field (head args ds)
        (← if ← atSelectionSet then selectionSet bound else pure [])
      : Grammar Selection).Takes (Balanced true) := by
  have happend := (Balanced.closed true).append
  refine (takes_optionalParentheses (takes_argument bound) bound).bind (fun args => ?_) happend
  refine (takes_directives bound).bind (fun ds => ?_) happend
  refine takes_atPunctuator.bind_nil fun b => ?_
  cases b with
  | true => exact (hset.mono fun _ => InBraces.balanced).bind_pure
  | false => exact Takes.bind_pure (takes_pure _ .nil)

/-- A selection around selection sets. -/
theorem takes_selection_succ (hset : (selectionSet bound).Takes InBraces) :
    (selection (bound + 1)).Takes (Balanced true) := by
  have happend := (Balanced.closed true).append
  have hdirectives : (directives bound).Takes (Balanced true) := takes_directives bound
  have hbraces := hset.mono fun _ => InBraces.balanced
  rw [selection]
  refine takes_position.bind_nil fun p => takes_peek fun t => ?_
  split
  · -- what stands behind dots
    refine takesAt_next (T := Balanced true) ?_ fun _ h => .plain (by decide) h
    refine takes_position.bind_nil fun p => ?_
    refine takes_skipKeyword (T := Balanced true) ?_ (fun _ h => .plain (by decide) h) ?_
    · refine takes_name_balanced.bind (fun condition => ?_) happend
      exact hdirectives.bind (fun ds => hbraces.bind_pure) happend
    · refine takes_peek fun t => ?_
      split
      · refine takesAt_next (T := Balanced true) hdirectives.bind_pure fun _ h => ?_
        exact .plain (Token.not_isBracket_name _) h
      · exact (hdirectives.bind (fun ds => hbraces.bind_pure) happend).at _
  · refine Takes.at (takes_name_balanced.bind (fun first => ?_) happend) _
    refine takes_skipPunctuator (T := Balanced true) ?_ (fun _ h => .plain (by decide) h) ?_
    · refine takes_name_balanced.map.bind (fun second => ?_) happend
      exact takes_field_rest hset _
    · exact Takes.bind_nil (takes_pure _ rfl) fun second => takes_field_rest hset _
  · exact takes_fail.at _

/-- **Selection sets**, and what is left of them up to their closing brace. -/
theorem takes_selections (bound : Nat) :
    (selectionSet bound).Takes InBraces ∧
    (selection bound).Takes (Balanced true) ∧
    (selectionsLeft bound).Takes (fun xs => ∃ inner, Balanced true inner ∧
      xs = inner ++ [.punctuator '\x7d']) := by
  induction bound with
  | zero => exact ⟨takes_fail, takes_fail, takes_fail⟩
  | succ bound ih =>
    obtain ⟨hset, hselection, hleft⟩ := ih
    have hthen : (do
        let s ← selection bound
        return s :: (← selectionsLeft bound) : Grammar (List Selection)).Takes fun xs =>
          ∃ inner, Balanced true inner ∧ xs = inner ++ [.punctuator '\x7d'] := by
      refine hselection.bind (fun s => hleft.bind_pure) ?_
      rintro xs _ hxs ⟨inner, hinner, rfl⟩
      exact ⟨xs ++ inner, hxs.append hinner, (List.append_assoc _ _ _).symm⟩
    refine ⟨?_, takes_selection_succ hset, ?_⟩
    · rw [selectionSet]
      refine takes_punctuator.bind (fun _ => hthen) ?_
      rintro _ _ rfl ⟨inner, hinner, rfl⟩
      exact ⟨inner, hinner, rfl⟩
    · rw [selectionsLeft]
      refine takes_skipPunctuator (T := (· = [])) (takes_pure _ rfl) (fun xs h => ?_) hthen
      exact ⟨[], .nil, by rw [h, List.nil_append]⟩

theorem takes_selectionSet (bound : Nat) : (selectionSet bound).Takes InBraces :=
  (takes_selections bound).1

end Selections

/-! ## Definitions -/

section Definitions

variable {bound : Nat}

theorem takes_header_end (bound : Nat) : (selectionSet bound).Takes InBracesBehindHeader :=
  (takes_selectionSet bound).mono fun xs h => ⟨[], xs, .nil, h, rfl⟩

theorem takes_operation (p : Position) (kind : OperationKind) (bound : Nat) :
    (operation p kind bound).Takes InBracesBehindHeader := by
  have hrest : ∀ n : Option String, (do
      let vs ← optionalBrackets '(' ')' (variableDefinition bound) bound
      let _ ← directives bound
      return Definition.operation ⟨p, some kind, n, vs, ← selectionSet bound⟩
      : Grammar Definition).Takes InBracesBehindHeader := by
    intro n
    refine (takes_optionalParentheses (takes_variableDefinition bound) bound).bind (fun vs => ?_)
      fun _ _ => .append
    exact (takes_directives bound).bind (fun _ => (takes_header_end bound).bind_pure)
      fun _ _ => .append
  rw [operation]
  refine takes_peek fun t => ?_
  split
  · refine takesAt_next (T := InBracesBehindHeader) ?_ fun xs h => ?_
    · exact Takes.bind_nil (takes_pure _ rfl) hrest
    · exact .append (.plain (Token.not_isBracket_name _) .nil) h
  · exact Takes.at (Takes.bind_nil (takes_pure _ rfl) hrest) _

theorem takes_fragment (p : Position) (bound : Nat) :
    (fragment p bound).Takes InBracesBehindHeader := by
  rw [fragment]
  refine takes_name_balanced.bind (fun n => ?_) fun _ _ => .append
  refine takes_keyword_balanced.bind (fun _ => ?_) fun _ _ => .append
  refine takes_name_balanced.bind (fun condition => ?_) fun _ _ => .append
  exact (takes_directives bound).bind (fun _ => (takes_header_end bound).bind_pure)
    fun _ _ => .append

/-- **A definition is tokens without braces outside of parentheses, and then some in
braces.** -/
theorem takes_definition (bound : Nat) : (definition bound).Takes InBracesBehindHeader := by
  have hkeyword : ∀ {s : String} {xs : List Token}, InBracesBehindHeader xs →
      InBracesBehindHeader (.name s :: xs) :=
    fun h => .append (.plain (Token.not_isBracket_name _) .nil) h
  rw [definition]
  refine takes_position.bind_nil fun p => takes_peek fun t => ?_
  split
  · exact (takes_header_end bound).bind_pure.at _
  · exact takesAt_next (takes_operation p .query bound) fun _ => hkeyword
  · exact takesAt_next (takes_operation p .mutation bound) fun _ => hkeyword
  · exact takesAt_next (takes_operation p .subscription bound) fun _ => hkeyword
  · exact takesAt_next (takes_fragment p bound) fun _ => hkeyword
  · exact takes_fail.at _

end Definitions

end Grammar

end SelectionModel
