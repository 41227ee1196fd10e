import SelectionModel.Proofs.Lowering.Inclusion
import SelectionModel.Proofs.Merging.Covering
import SelectionModel.Proofs.Steps

/-!
# What conditions mean

Under values of the variables a directive lets its selection through or not. The
conditions that come of directives hold exactly when all of them let it through.

* `Directive.admits`: one directive.
* `holds_iff_admits`: **the conditions of a selection and its directives.**
* `mem_conditions_of_inclusion`, `mem_conditions_of_includedFields`: the conditions on
  variables that directives come to, one by one.
-/

namespace SelectionModel

variable (values : String → Bool)

/-- A condition holds under values of the variables. -/
def Condition.Holds (c : Condition) : Prop := c.evaluate (values c.variableName) = true

/-- **Whether a directive lets its selection through** under values of the variables.
Only a literal or a variable can keep it from doing so. -/
def Directive.admits (d : Directive) : Bool :=
  match exclusionValue? d.name, d.arguments with
  | some excluded, [(_, .boolean b)] => b != excluded
  | some excluded, [(_, .variable v)] => values v != excluded
  | _, _ => true

variable {values}

/-- The conditions found so far hold together with what the other directives say. -/
theorem holds_iff_admits_from {file : Option String} {conditions cs : List Condition}
    {directives : List Directive}
    (h : inclusionFrom file conditions directives = .ok (.under cs)) :
    (∀ c ∈ cs, c.Holds values) ↔
      (∀ c ∈ conditions, c.Holds values) ∧ ∀ d ∈ directives, d.admits values = true := by
  induction directives generalizing conditions with
  | nil =>
    obtain rfl := Inclusion.under.inj (Except.ok.inj h)
    simp
  | cons d ds ih =>
    rw [List.forall_mem_cons]
    rw [inclusionFrom] at h
    split at h
    next excluded _ value hx ha =>
      split at h
      next b =>
        -- a literal that does not exclude adds no condition
        split at h
        · cases h
        next hb =>
        have hd : d.admits values = true := by simp [Directive.admits, hx, ha, hb]
        rw [ih h, hd]
        simp
      next v =>
        have hd : d.admits values = (values v != excluded) := by simp [Directive.admits, hx, ha]
        have hc : (∀ c ∈ extendConditions conditions [⟨v, excluded⟩], c.Holds values) ↔
            (∀ c ∈ conditions, c.Holds values) ∧ (values v != excluded) = true := by
          simp only [mem_extendConditions, List.mem_singleton, or_imp, forall_and, forall_eq]
          rfl
        rw [ih h, hd, hc, and_assoc]
      · cases h
    next hn =>
      have hd : d.admits values = true := by
        rw [Directive.admits]
        split
        next hx ha => exact absurd ha (hn _ _ _ hx)
        next hx ha => exact absurd ha (hn _ _ _ hx)
        · rfl
      rw [ih h, hd]
      simp

/-- **The conditions of a selection hold exactly when its directives let it through.** -/
theorem holds_iff_admits {file : Option String} {directives : List Directive} {cs : List Condition}
    (h : inclusion file directives = .ok (.under cs)) :
    (∀ c ∈ cs, c.Holds values) ↔ ∀ d ∈ directives, d.admits values = true := by
  rw [holds_iff_admits_from h]
  simp

/-! ## Conditions one by one -/

/-- The condition on a variable that a directive stands for, if any. -/
def Directive.condition? (d : Directive) : Option Condition :=
  match exclusionValue? d.name, d.arguments with
  | some excluded, [(_, .variable v)] => some ⟨v, excluded⟩
  | _, _ => none

/-- A directive without a literal that excludes lets a selection through while its
condition holds, if it has one. -/
theorem Directive.admits_iff {d : Directive} (h : d.excludes = false) :
    d.admits values = true ↔ ∀ c, d.condition? = some c → c.Holds values := by
  rw [admits]
  split
  next excluded _ b hx ha =>
    have hc : d.condition? = none := by simp [condition?, hx, ha]
    have hb : (b == excluded) = false := by simpa [excludes, hx, ha] using h
    rw [hc, bne, hb]
    simp
  next excluded _ v hx ha =>
    have hc : d.condition? = some ⟨v, excluded⟩ := by simp [condition?, hx, ha]
    rw [hc]
    simp [Condition.Holds, Condition.evaluate]
  next hb hv =>
    have hc : d.condition? = none := by
      rw [condition?]
      split
      next excluded _ v hx ha => exact absurd ha (hv excluded _ v hx)
      · rfl
    rw [hc]
    simp

theorem nodup_extendConditions {conditions : List Condition} (h : conditions.Nodup)
    (additional : List Condition) : (extendConditions conditions additional).Nodup := by
  rw [extendConditions]
  refine List.foldlRecOn additional _ h fun cs hcs c _ => ?_
  split
  · exact hcs
  next hc =>
    have hdisjoint : ∀ a ∈ cs, ∀ b ∈ [c], a ≠ b := by
      intro a ha b hb hab
      rw [List.mem_singleton] at hb
      exact hc (hb ▸ hab ▸ ha)
    exact List.nodup_append.2 ⟨hcs, List.nodup_singleton c, hdisjoint⟩

/-- The conditions found so far, and those that the other directives come to. -/
theorem conditions_of_inclusionFrom {file : Option String} {conditions cs : List Condition}
    {directives : List Directive}
    (h : inclusionFrom file conditions directives = .ok (.under cs)) (hn : conditions.Nodup) :
    cs.Nodup ∧ ∀ c, c ∈ cs ↔ c ∈ conditions ∨ ∃ d ∈ directives, d.condition? = some c := by
  induction directives generalizing conditions with
  | nil =>
    obtain rfl := Inclusion.under.inj (Except.ok.inj h)
    exact ⟨hn, fun c => by simp⟩
  | cons d ds ih =>
    simp only [List.exists_mem_cons_iff]
    rw [inclusionFrom] at h
    split at h
    next excluded _ value hx ha =>
      split at h
      next b =>
        have hd : d.condition? = none := by simp [Directive.condition?, hx, ha]
        split at h
        · cases h
        · obtain ⟨hcs, hmem⟩ := ih h hn
          exact ⟨hcs, fun c => by rw [hmem, hd]; simp⟩
      next v =>
        have hd : d.condition? = some ⟨v, excluded⟩ := by simp [Directive.condition?, hx, ha]
        obtain ⟨hcs, hmem⟩ := ih h (nodup_extendConditions hn _)
        refine ⟨hcs, fun c => ?_⟩
        rw [hmem, mem_extendConditions, List.mem_singleton, hd, Option.some.injEq, or_assoc,
          eq_comm (a := c)]
      · cases h
    next hv =>
      have hd : d.condition? = none := by
        rw [Directive.condition?]
        split
        next hx ha => exact absurd ha (hv _ _ _ hx)
        · rfl
      obtain ⟨hcs, hmem⟩ := ih h hn
      exact ⟨hcs, fun c => by rw [hmem, hd]; simp⟩

/-- **The conditions that come of directives**, each of them once. -/
theorem mem_conditions_of_inclusion {file : Option String} {directives : List Directive}
    {cs : List Condition} (h : inclusion file directives = .ok (.under cs)) :
    cs.Nodup ∧ ∀ c, c ∈ cs ↔ ∃ d ∈ directives, d.condition? = some c := by
  obtain ⟨hcs, hmem⟩ := conditions_of_inclusionFrom h List.nodup_nil
  exact ⟨hcs, fun c => by rw [hmem]; simp⟩

/-- **The conditions of a group of selections**: those of all that no literal rules out. -/
theorem mem_conditions_of_includedFields {file : Option String} {group : List SelectedField}
    {conditions : List Condition} {included : List SelectedField}
    (h : includedFields file group = .ok (conditions, included)) :
    conditions.Nodup ∧ ∀ c, c ∈ conditions ↔
      ∃ n ∈ included, ∃ d ∈ n.head.directives, d.condition? = some c := by
  induction group generalizing conditions included with
  | nil =>
    obtain ⟨rfl, rfl⟩ := Prod.mk.inj (Except.ok.inj h)
    exact ⟨List.nodup_nil, fun c => by simp⟩
  | cons f group ih =>
    rw [includedFields] at h
    split at h
    · cases h
    · exact ih h
    next cs hi =>
      obtain ⟨⟨conditions', included'⟩, hg, heq⟩ := Except.map_eq_ok.1 h
      obtain ⟨rfl, rfl⟩ := Prod.mk.inj heq
      obtain ⟨hcs, hmem⟩ := mem_conditions_of_inclusion hi
      obtain ⟨-, hrest⟩ := ih hg
      refine ⟨nodup_extendConditions hcs _, fun c => ?_⟩
      rw [mem_extendConditions, hmem, hrest, List.exists_mem_cons_iff]

end SelectionModel
