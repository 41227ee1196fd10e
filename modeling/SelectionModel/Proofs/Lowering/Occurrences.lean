import SelectionModel.Proofs.Collection.Collected
import SelectionModel.Proofs.Lowering.Scopes
import SelectionModel.Proofs.Merging.Fields

/-!
# What lowered selections are made from

A lowered field stands for the selections of its response name, and an interface
for an occurrence of a fragment. The interface has the fields around the outermost
fragment of the occurrence and what is selected along it.

* `LowersFields.mem_names`, `LowersFields.exists_below`: the fields.
* `InterfaceOf.possible_iff`, `InterfaceOf.mem_names`: **what an interface takes
  from its occurrence.**
* `LowersFragments.exists_walk`: **lowering walks through the occurrences in pre-order.**
* `LowersFragments.exists_occurrence`, `LowersFragments.exists_interface`:
  interfaces and occurrences.
-/

namespace SelectionModel

/-- The selections on a type, wherever they are written. -/
def Selected.typed (s : Selected) (type : String) : TypedSelections := ⟨type, s.selections⟩

/-! ## Fields -/

/-- What is included of a group is what counts of its response name. -/
theorem included_eq_group {s : Selected} {g : Group String SelectedField} (hg : g ∈ s.groups)
    {conditions : List Condition} {included : List SelectedField}
    (h : includedFields s.file g.members = .ok (conditions, included)) (type : String) :
    included = (s.typed type).group g.key :=
  eq_included hg h

variable {pass : Pass} {registry : Registry}

/-- The lowered fields stand in the order of their groups. -/
theorem LowersFields.names_sublist {type : String} {keys : OrderedSet SelectionKey} {s : Selected}
    {gs : List (Group String SelectedField)} {fields : List Field} :
    LowersFields pass registry type keys s gs fields → (∀ g ∈ gs, g ∈ s.groups) →
      (fields.map Field.responseName).Sublist (gs.map Group.key)
  | .nil, _ => .slnil
  | .excluded _ hr, hg =>
    (names_sublist hr fun g h => hg g (List.mem_cons_of_mem _ h)).cons _
  | .field hi _ _ _ hr, hg => by
    have hn := names_sublist hr fun g h => hg g (List.mem_cons_of_mem _ h)
    have hf := included_subset hi _ List.mem_cons_self
    rw [List.map_cons, List.map_cons, FieldHead.responseName_lowered,
      ((mem_members_iff (hg _ List.mem_cons_self)).1 hf).2]
    exact hn.cons_cons _

/-- A lowered field stands for selections that count. -/
theorem LowersFields.selects {type : String} {keys : OrderedSet SelectionKey} {s : Selected}
    {gs : List (Group String SelectedField)} {fields : List Field} :
    LowersFields pass registry type keys s gs fields → (∀ g ∈ gs, g ∈ s.groups) →
      ∀ f ∈ fields, (s.typed type).Selects f.responseName
  | .nil, _ => by simp
  | .excluded _ hr, hg => selects hr fun g h => hg g (List.mem_cons_of_mem _ h)
  | .field hi _ _ _ hr, hg => by
    have hgs := hg _ List.mem_cons_self
    have hf := included_subset hi _ List.mem_cons_self
    intro f h
    rcases List.mem_cons.1 h with rfl | h
    · rw [FieldHead.responseName_lowered, ((mem_members_iff hgs).1 hf).2, TypedSelections.Selects,
        ← included_eq_group hgs hi]
      exact List.cons_ne_nil _ _
    · exact selects hr (fun g h => hg g (List.mem_cons_of_mem _ h)) f h

/-- Selections that count are lowered to a field, and what is below them to what
is below it. -/
theorem LowersFields.exists_below_of_groups {type : String} {keys : OrderedSet SelectionKey}
    {s : Selected} {gs : List (Group String SelectedField)} {fields : List Field} :
    LowersFields pass registry type keys s gs fields → (∀ g ∈ gs, g ∈ s.groups) →
      ∀ g ∈ gs, (s.typed type).Selects g.key → ∃ f ∈ fields, f.responseName = g.key ∧
        ∃ place below, (s.typed type).below? pass.schema g.key = some (below.typed place.type) ∧
          LowersPlace pass registry place below f.fields f.fragments
  | .nil, _ => by simp
  | .excluded hi hr, hg => by
    intro g h hs
    rcases List.mem_cons.1 h with rfl | h
    · exact absurd (included_eq_group (hg _ List.mem_cons_self) hi type).symm hs
    · exact exists_below_of_groups hr (fun g h => hg g (List.mem_cons_of_mem _ h)) g h hs
  | .field hi hd _ hb hr, hg => by
    have hgs := hg _ List.mem_cons_self
    have hf := included_subset hi _ List.mem_cons_self
    intro g h hs
    rcases List.mem_cons.1 h with rfl | h
    -- the first selection that is included says what the field is, and what type it has
    · refine ⟨_, List.mem_cons_self, ((mem_members_iff hgs).1 hf).2, _, _, ?_, hb⟩
      rw [TypedSelections.below?, ← included_eq_group hgs hi]
      simp only [Selected.typed, hd, Option.map_some]
      rfl
    · obtain ⟨f, hf, he⟩ :=
        exists_below_of_groups hr (fun g h => hg g (List.mem_cons_of_mem _ h)) g h hs
      exact ⟨f, List.mem_cons_of_mem _ hf, he⟩

section Fields

variable {type name : String} {keys : OrderedSet SelectionKey} {s : Selected} {fields : List Field}

/-- **No two lowered fields have the same response name.** -/
theorem LowersFields.nodup_names (h : LowersFields pass registry type keys s s.groups fields) :
    (fields.map Field.responseName).Nodup :=
  (h.names_sublist fun _ hg => hg).nodup (keys_nodup_groupBy _ _)

/-- **What counts of a response name is lowered to a field**, and what is below it
to what is below that field. -/
theorem LowersFields.exists_below (h : LowersFields pass registry type keys s s.groups fields)
    (hn : (s.typed type).Selects name) :
    ∃ f ∈ fields, f.responseName = name ∧
      ∃ place below, (s.typed type).below? pass.schema name = some (below.typed place.type) ∧
        LowersPlace pass registry place below f.fields f.fragments := by
  obtain ⟨f, hf⟩ := List.exists_mem_of_ne_nil _ hn
  obtain ⟨hf, hk⟩ := List.mem_filter.1 hf
  rw [Bool.and_eq_true, decide_eq_true_eq] at hk
  obtain ⟨g, hg, he, -⟩ :=
    exists_group (fun f : SelectedField => f.head.responseName) hf
  rw [hk.1] at he
  obtain rfl := he
  exact h.exists_below_of_groups (fun _ hg => hg) g hg hn

/-- **The names of lowered fields are those that count.** -/
theorem LowersFields.mem_names (h : LowersFields pass registry type keys s s.groups fields) :
    name ∈ fields.map Field.responseName ↔ (s.typed type).Selects name := by
  constructor
  · intro hn
    obtain ⟨f, hf, rfl⟩ := List.mem_map.1 hn
    exact h.selects (fun _ hg => hg) f hf
  · intro hn
    obtain ⟨f, hf, rfl, -⟩ := h.exists_below hn
    exact List.mem_map_of_mem hf

end Fields

/-! ## Fragments -/

/-- A fragment among selections is lowered to an interface. What is in the fragment
is lowered apart from it. -/
inductive LowersFragment (pass : Pass) (registry : Registry) (around : Enclosing) (s : Selected) :
    OccurringFragment → Interface → Selected → Prop where
  | intro {f : SelectedFragment} {conditions : List Condition} {e : EnteredFragment}
      {own : List Field} :
    f ∈ s.fragments → inclusion s.file f.directives = .ok (.under conditions) →
    enter registry s around.type f = .ok e →
    LowersFields pass registry e.typeCondition (fragmentKeys around.keys e) e.selected
      e.selected.groups own →
    LowersFragment pass registry around s ⟨f, e.selected.typed e.typeCondition⟩
      (e.lowered pass around conditions own) e.selected

/-- **The interface that an occurrence of a fragment is lowered to.** -/
inductive InterfaceOf (pass : Pass) (registry : Registry) :
    Enclosing → Selected → Occurrence → Interface → Prop where
  | here {around : Enclosing} {s inside : Selected} {x : OccurringFragment} {i : Interface} :
    LowersFragment pass registry around s x i inside →
    InterfaceOf pass registry around s ⟨[], x⟩ i
  | inside {around : Enclosing} {s inside : Selected} {x : OccurringFragment} {i j : Interface}
      {o : Occurrence} :
    LowersFragment pass registry around s x i inside →
    InterfaceOf pass registry i.enclosing inside o j →
    InterfaceOf pass registry around s (o.within x) j

theorem typed_of_enter {s : Selected} {type : String} {f : SelectedFragment} {e : EnteredFragment}
    (h : enter registry s type f = .ok e) :
    f.target.typed? registry type = some (e.selected.typed e.typeCondition) := by
  obtain ⟨condition, selections, ht, rfl⟩ | ⟨name, d, ht, hd, -, rfl⟩ := enter_eq_ok.1 h
  · rw [ht]
    rfl
  · rw [ht, FragmentTarget.typed?, hd]
    rfl

namespace LowersFragment

variable {around : Enclosing} {s inside : Selected} {x : OccurringFragment} {i : Interface}

theorem inside_eq (h : LowersFragment pass registry around s x i inside) :
    x.inside = inside.typed i.typeCondition := by
  cases h
  rfl

theorem mem_occurring (h : LowersFragment pass registry around s x i inside) :
    x ∈ (s.typed around.type).occurring registry := by
  obtain ⟨hf, hi, he, -⟩ := h
  exact TypedSelections.mem_occurring.2 ⟨hf, ruledOut_of_under hi, typed_of_enter he⟩

theorem possible_iff (h : LowersFragment pass registry around s x i inside) {object : String} :
    object ∈ i.possibleTypes ↔
      object ∈ around.possibleTypes ∧ object ∈ pass.schema.possibleTypes x.inside.type := by
  cases h
  rw [EnteredFragment.lowered, OrderedSet.mem_inter]
  exact And.comm

theorem mem_names (h : LowersFragment pass registry around s x i inside) {name : String} :
    name ∈ i.fields.map Field.responseName ↔
      name ∈ around.fields.map Field.responseName ∨ x.inside.Selects name := by
  obtain ⟨-, -, -, ho⟩ := h
  rw [EnteredFragment.lowered, mem_names_mergeFields, List.map_append, List.mem_append,
    ho.mem_names, inheritFields_eq_map, List.map_map]
  simp [Function.comp_def]

/-- The conditions are those of the directives on the fragment. -/
theorem inclusion_eq (h : LowersFragment pass registry around s x i inside) :
    inclusion s.file x.fragment.directives = .ok (.under i.conditions) := by
  cases h
  assumption

end LowersFragment

namespace InterfaceOf

variable {around : Enclosing} {s : Selected} {o : Occurrence} {i : Interface}

theorem typeCondition (h : InterfaceOf pass registry around s o i) : i.typeCondition = o.type := by
  induction h with
  | here hl => exact (congrArg TypedSelections.type hl.inside_eq).symm
  | inside _ _ ih => exact ih

/-- The occurrence stands in what is lowered. -/
theorem stands (h : InterfaceOf pass registry around s o i) :
    Stands registry (s.typed around.type) o.around o.fragment := by
  induction h with
  | here hl => exact .here hl.mem_occurring
  | inside hl _ ih => exact .inside hl.mem_occurring (hl.inside_eq ▸ ih)

theorem occurs (h : InterfaceOf pass registry around s o i) :
    Occurs registry (s.typed around.type) o.insides o.fragment.inside :=
  ⟨o, h.stands, rfl, rfl⟩

/-- **Its possible types are those to which its occurrence applies.** -/
theorem possible_iff (h : InterfaceOf pass registry around s o i) {object : String} :
    object ∈ i.possibleTypes ↔
      object ∈ around.possibleTypes ∧ Applies pass.schema object o.insides := by
  induction h with
  | here hl => simp [hl.possible_iff]
  | inside hl _ ih => simp [ih, Interface.enclosing, hl.possible_iff, and_assoc]

/-- **Its response names are those around it and those along its occurrence.** -/
theorem mem_names (h : InterfaceOf pass registry around s o i) {name : String} :
    name ∈ i.fields.map Field.responseName ↔
      name ∈ around.fields.map Field.responseName ∨ SelectsAlong o.insides name := by
  induction h with
  | here hl => simp [hl.mem_names, -List.mem_map]
  | inside hl _ ih => simp [ih, Interface.enclosing, hl.mem_names, or_assoc, -List.mem_map]

end InterfaceOf

/-! ## All fragments -/

/-- A fragment that a literal rules out does not occur. -/
theorem occurringAmong_of_never {file : Option String} {type : String} {f : SelectedFragment}
    (h : inclusion file f.directives = .ok .never) (fs : List SelectedFragment) :
    occurringAmong registry type (f :: fs) = occurringAmong registry type fs := by
  rw [occurringAmong, List.filter_cons_of_neg (by simp [ruledOut_of_never h])]
  rfl

/-- A fragment that is entered occurs. -/
theorem occurringAmong_of_enter {s : Selected} {type : String} {f : SelectedFragment}
    {conditions : List Condition} {e : EnteredFragment}
    (hi : inclusion s.file f.directives = .ok (.under conditions))
    (he : enter registry s type f = .ok e) (fs : List SelectedFragment) :
    occurringAmong registry type (f :: fs) =
      ⟨f, e.selected.typed e.typeCondition⟩ :: occurringAmong registry type fs := by
  rw [occurringAmong, List.filter_cons_of_pos (by simp [ruledOut_of_under hi]),
    List.filterMap_cons_some (by rw [typed_of_enter he]; rfl)]
  rfl

/-- **Interfaces stand for the occurrences among some fragments**, one for each, in
pre-order. -/
structure Walked (registry : Registry) (R : Occurrence → Interface → Prop)
    (xs : List OccurringFragment) (parts : List (Occurrence × Interface)) : Prop where
  preOrder : PreOrder registry xs (parts.map Prod.fst)
  related : ∀ p ∈ parts, R p.1 p.2

namespace Walked

variable {R R' : Occurrence → Interface → Prop} {xs : List OccurringFragment}
  {parts : List (Occurrence × Interface)}

theorem nil : Walked registry R [] [] := ⟨.nil, by simp⟩

/-- The interface of a fragment comes before those of the fragments in it. -/
theorem entered {x : OccurringFragment} {i : Interface} {nested rest : List (Occurrence × Interface)}
    (hi : R ⟨[], x⟩ i) (hR : ∀ o j, R' o j → R (o.within x) j)
    (hnested : Walked registry R' (x.inside.occurring registry) nested)
    (hrest : Walked registry R xs rest) :
    Walked registry R (x :: xs)
      ((⟨[], x⟩, i) :: (nested.map fun p => (p.1.within x, p.2)) ++ rest) where
  preOrder := by
    rw [List.map_append, List.map_cons, List.map_map]
    have h := PreOrder.cons hnested.preOrder hrest.preOrder
    rwa [List.map_map] at h
  related p hp := by
    rcases List.mem_append.1 hp with hp | hp
    · rcases List.mem_cons.1 hp with rfl | hp
      · exact hi
      · obtain ⟨q, hq, rfl⟩ := List.mem_map.1 hp
        exact hR _ _ (hnested.related q hq)
    · exact hrest.related p hp

theorem snd_entered {x : OccurringFragment} {i : Interface} {is js : List Interface}
    {nested rest : List (Occurrence × Interface)} (hn : nested.map Prod.snd = is)
    (hr : rest.map Prod.snd = js) :
    ((⟨[], x⟩, i) :: (nested.map fun p => (p.1.within x, p.2)) ++ rest).map Prod.snd =
      i :: is ++ js := by
  rw [List.map_append, List.map_cons, List.map_map, ← hn, hr]
  rfl

/-- What corresponds holds of an occurrence exactly when it holds of an interface. -/
theorem exists_iff (h : Walked registry R xs parts) {p : Occurrence → Prop} {q : Interface → Prop}
    (hpq : ∀ o i, R o i → (p o ↔ q i)) :
    (∃ i ∈ parts.map Prod.snd, q i) ↔ ∃ o ∈ parts.map Prod.fst, p o := by
  simp only [List.mem_map, exists_exists_and_eq_and]
  exact exists_congr fun r => and_congr_right fun hr => (hpq _ _ (h.related r hr)).symm

/-- **All occurrences have their interfaces.** -/
theorem exists_part {s : TypedSelections} (h : Walked registry R (s.occurring registry) parts)
    {o : Occurrence} (ho : Stands registry s o.around o.fragment) : ∃ p ∈ parts, p.1 = o :=
  List.mem_map.1 (h.preOrder.mem_iff.2 ho)

end Walked

/-- **Lowering walks through the occurrences in pre-order.** -/
theorem LowersFragments.exists_walk {around : Enclosing} {s : Selected}
    {fs : List SelectedFragment} {is : List Interface} :
    LowersFragments pass registry around s fs is → (∀ f ∈ fs, f ∈ s.fragments) →
      ∃ parts, parts.map Prod.snd = is ∧ Walked registry (InterfaceOf pass registry around s)
        (occurringAmong registry around.type fs) parts
  | .nil, _ => ⟨[], rfl, .nil⟩
  | .excluded hi hr, hf => by
    rw [occurringAmong_of_never hi]
    exact exists_walk hr fun f h => hf f (List.mem_cons_of_mem _ h)
  | .entered hi he _ ho hn hr, hf => by
    obtain ⟨nested, hnestedIs, hnested⟩ := exists_walk hn fun _ h => h
    obtain ⟨rest, hrestIs, hrest⟩ := exists_walk hr fun f h => hf f (List.mem_cons_of_mem _ h)
    have hl := LowersFragment.intro (hf _ List.mem_cons_self) hi he ho
    rw [occurringAmong_of_enter hi he]
    exact ⟨_, Walked.snd_entered hnestedIs hrestIs,
      .entered (.here hl) (fun _ _ hj => .inside hl hj) hnested hrest⟩

section Fragments

variable {around : Enclosing} {s : Selected} {is : List Interface}
  (h : LowersFragments pass registry around s s.fragments is)

include h

/-- **Every interface has an occurrence.** -/
theorem LowersFragments.exists_occurrence {i : Interface} (hi : i ∈ is) :
    ∃ o, InterfaceOf pass registry around s o i := by
  obtain ⟨parts, rfl, hw⟩ := h.exists_walk fun _ h => h
  obtain ⟨p, hp, rfl⟩ := List.mem_map.1 hi
  exact ⟨p.1, hw.related p hp⟩

/-- **Every occurrence has an interface.** -/
theorem LowersFragments.exists_interface {o : Occurrence}
    (ho : Stands registry (s.typed around.type) o.around o.fragment) :
    ∃ i ∈ is, InterfaceOf pass registry around s o i := by
  obtain ⟨parts, rfl, hw⟩ := h.exists_walk fun _ h => h
  obtain ⟨p, hp, rfl⟩ := hw.exists_part ho
  exact ⟨p.2, List.mem_map_of_mem hp, hw.related p hp⟩

end Fragments

/-- **What a fragment is lowered to**: its interface and those of the fragments in it. -/
theorem LowersFragments.entered_of_mem {around : Enclosing} {s : Selected}
    {fs : List SelectedFragment} {is : List Interface} :
    LowersFragments pass registry around s fs is → ∀ f ∈ fs, ruledOut f.directives = false →
      ∃ conditions e own nested, inclusion s.file f.directives = .ok (.under conditions) ∧
        enter registry s around.type f = .ok e ∧ (pass.schema.type? e.typeCondition).isSome ∧
        LowersFields pass registry e.typeCondition (fragmentKeys around.keys e) e.selected
          e.selected.groups own ∧
        LowersFragments pass registry (e.lowered pass around conditions own).enclosing e.selected
          e.selected.fragments nested ∧
        (e.lowered pass around conditions own :: nested).Sublist is
  | .nil => by simp
  | .excluded hi hr => by
    intro f h hn
    rcases List.mem_cons.1 h with rfl | h
    · rw [ruledOut_of_never hi] at hn
      cases hn
    · exact entered_of_mem hr f h hn
  | .entered hi he ht ho hnested hr => by
    intro f h hn
    rcases List.mem_cons.1 h with rfl | h
    · exact ⟨_, _, _, _, hi, he, ht, ho, hnested, List.sublist_append_left _ _⟩
    · obtain ⟨conditions, e, own, nested, hi, he, ht, ho, hnested, hs⟩ := entered_of_mem hr f h hn
      exact ⟨conditions, e, own, nested, hi, he, ht, ho, hnested,
        hs.trans (List.sublist_append_right _ _)⟩

end SelectionModel
