import SelectionModel.Lowering.Selections

/-!
# Selections that are ruled out

A literal condition decides whether a selection is part of responses, whatever else
its directives say. Conditions on variables leave it in.

* `inclusion_eq_ok`: when directives never let a selection through.
* `includedFields_eq_ok`: the fields of a group that are left.
-/

namespace SelectionModel

/-- Whether a directive has a literal that excludes its selection. -/
def Directive.excludes (d : Directive) : Bool :=
  match exclusionValue? d.name, d.arguments with
  | some excluded, [(_, .boolean b)] => b == excluded
  | _, _ => false

/-- Whether a literal condition rules a selection out. -/
def ruledOut (directives : List Directive) : Bool := directives.any Directive.excludes

/-- A directive decides, or it leaves the answer to the rest. -/
theorem inclusionFrom_cons_eq_ok {file : Option String} {conditions : List Condition}
    {d : Directive} {ds : List Directive} {i : Inclusion}
    (h : inclusionFrom file conditions (d :: ds) = .ok i) :
    (d.excludes = true ∧ i = .never) ∨
      (d.excludes = false ∧ ∃ cs, inclusionFrom file cs ds = .ok i) := by
  rw [inclusionFrom] at h
  split at h
  · next excluded _ value hx ha =>
    split at h
    · next b =>
      split at h
      · next hb => exact .inl ⟨by simp [Directive.excludes, hx, ha, hb], (Except.ok.inj h).symm⟩
      · next hb => exact .inr ⟨by simp [Directive.excludes, hx, ha, hb], conditions, h⟩
    -- a variable is a condition, and no other value is one
    · next v => exact .inr ⟨by simp [Directive.excludes, hx, ha], _, h⟩
    · cases h
  · next hn =>
    refine .inr ⟨?_, conditions, h⟩
    rw [Directive.excludes]
    split
    · next hx ha => exact absurd ha (hn _ _ _ hx)
    · rfl

theorem inclusionFrom_eq_ok {file : Option String} {conditions : List Condition}
    {directives : List Directive} {i : Inclusion}
    (h : inclusionFrom file conditions directives = .ok i) :
    ruledOut directives = true ↔ i = .never := by
  induction directives generalizing conditions with
  | nil =>
    obtain rfl := Except.ok.inj h
    simp [ruledOut]
  | cons d ds ih =>
    rw [ruledOut, List.any_cons, Bool.or_eq_true]
    rcases inclusionFrom_cons_eq_ok h with ⟨hd, rfl⟩ | ⟨hd, cs, h⟩
    · simp [hd]
    · rw [hd, ← ih h, ruledOut]
      simp

/-- **Directives never let a selection through exactly when a literal rules it out.** -/
theorem inclusion_eq_ok {file : Option String} {directives : List Directive} {i : Inclusion}
    (h : inclusion file directives = .ok i) : ruledOut directives = true ↔ i = .never :=
  inclusionFrom_eq_ok h

theorem ruledOut_of_never {file : Option String} {directives : List Directive}
    (h : inclusion file directives = .ok .never) : ruledOut directives = true :=
  (inclusion_eq_ok h).2 rfl

theorem ruledOut_of_under {file : Option String} {directives : List Directive}
    {conditions : List Condition} (h : inclusion file directives = .ok (.under conditions)) :
    ruledOut directives = false :=
  eq_false_of_ne_true fun hr => by cases (inclusion_eq_ok h).1 hr

/-- **What is included of a group** is all that no literal rules out. -/
theorem includedFields_eq_ok {file : Option String} {group : List SelectedField}
    {conditions : List Condition} {included : List SelectedField}
    (h : includedFields file group = .ok (conditions, included)) :
    included = group.filter fun f => !ruledOut f.head.directives := by
  induction group generalizing conditions included with
  | nil => exact (Prod.mk.inj (Except.ok.inj h)).2.symm
  | cons g group ih =>
    rw [includedFields] at h
    split at h
    · cases h
    · next hi =>
      rw [ih h, List.filter_cons_of_neg (by simp [ruledOut_of_never hi])]
    · next cs hi =>
      cases hg : includedFields file group with
      | error e => rw [hg] at h; cases h
      | ok r =>
        rw [hg] at h
        obtain ⟨-, rfl⟩ := Prod.mk.inj (Except.ok.inj h)
        rw [List.filter_cons_of_pos (by simp [ruledOut_of_under hi]), ← ih hg]

theorem included_subset {file : Option String} {group : List SelectedField}
    {conditions : List Condition} {included : List SelectedField}
    (h : includedFields file group = .ok (conditions, included)) : ∀ f ∈ included, f ∈ group := by
  intro f hf
  rw [includedFields_eq_ok h] at hf
  exact (List.mem_filter.1 hf).1

end SelectionModel
