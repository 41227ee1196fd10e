import SelectionModel.Proofs.Tree.Subfields
import SelectionModel.Tree.Decoding
import SelectionModel.Tree.Encoding

/-!
# Trees survive their JSON form

What is written is read again. Values and fields contain themselves, so they are read up
to a depth, and any depth will do that is not less than that of their JSON form. What
stands in a fragment is read in a wider notation, which what is written is part of.

* `Value.Representable`: the values that JSON can hold.
* `Value.ofJsonAt?_toJson`, `Field.ofJsonAt?_toJson`: values and fields, at any depth.
* `DocumentModel.ofJson?_toJson`: **the models of some documents.**
-/

namespace SelectionModel

open Decode

/-! ## Depth of JSON values -/

namespace Json

theorem itemsDepth_le {js : List Json} {n : Nat} : itemsDepth js ≤ n ↔ ∀ j ∈ js, j.depth ≤ n := by
  induction js with
  | nil => simp [itemsDepth]
  | cons j js ih => rw [itemsDepth, Nat.max_le, ih, List.forall_mem_cons]

theorem membersDepth_le {ms : List (String × Json)} {n : Nat} :
    membersDepth ms ≤ n ↔ ∀ m ∈ ms, m.2.depth ≤ n := by
  induction ms with
  | nil => simp [membersDepth]
  | cons m ms ih => rw [membersDepth, Nat.max_le, ih, List.forall_mem_cons]

theorem depth_array_le {js : List Json} {n : Nat} (h : (Json.array js).depth ≤ n) :
    ∀ j ∈ js, j.depth ≤ n := by
  rw [depth] at h
  exact itemsDepth_le.1 (Nat.le_of_succ_le h)

theorem depth_object_le {ms : List (String × Json)} {n : Nat}
    (h : (Json.object ms).depth ≤ n + 1) : ∀ m ∈ ms, m.2.depth ≤ n := by
  rw [depth] at h
  exact membersDepth_le.1 (Nat.le_of_succ_le_succ h)

/-- A member is nested less deep than its object. -/
theorem depth_get?_le {j member : Json} {name : String} {n : Nat}
    (hm : j.get? name = some member) (h : j.depth ≤ n + 1) : member.depth ≤ n := by
  cases j with
  | object members =>
    obtain ⟨before, after, rfl, -⟩ := List.lookup_eq_some_iff.1 hm
    exact depth_object_le h (name, member) (List.mem_append_right _ List.mem_cons_self)
  | _ => cases hm

theorem depth_pos (j : Json) : 0 < j.depth := by
  cases j <;> simp [depth]

/-- A depth that is not less than that of a value has one below it. -/
theorem exists_of_depth_le {j : Json} {n : Nat} (h : j.depth ≤ n) : ∃ m, n = m + 1 :=
  Nat.exists_eq_succ_of_ne_zero (Nat.ne_of_gt (Nat.lt_of_lt_of_le j.depth_pos h))

end Json

/-! ## Lists and sets -/

section Lists

variable {α β : Type}

theorem mapM_write {read : β → Option α} {write : α → β} {xs : List α}
    (h : ∀ x ∈ xs, read (write x) = some x) : (xs.map write).mapM read = some xs := by
  induction xs with
  | nil => rfl
  | cons x xs ih =>
    obtain ⟨hx, hxs⟩ := List.forall_mem_cons.1 h
    rw [List.map_cons, List.mapM_cons, hx, ih hxs]
    rfl

variable {read : Json → Option α} {write : α → Json}

theorem list?_write {xs : List α} (h : ∀ x ∈ xs, read (write x) = some x) :
    list? read (.array (xs.map write)) = some xs := mapM_write h

/-- A set is read in the order in which it is written. -/
theorem set?_write [DecidableEq α] {s : OrderedSet α} (h : ∀ x ∈ s, read (write x) = some x) :
    set? read (.array (s.toList.map write)) = some s := by
  rw [set?, list?_write h, Option.map_some]
  exact congrArg some (OrderedSet.ext (OrderedSet.toList_ofList s.nodup))

end Lists

theorem list?_text (texts : List String) : list? text? (.ofTexts texts) = some texts :=
  list?_write fun _ _ => rfl

theorem set?_text (texts : OrderedSet String) :
    set? text? (.ofTexts texts.toList) = some texts :=
  set?_write fun _ _ => rfl

/-! ## Members -/

section Members

variable {α : Type} {read : Json → Option α} {name other : String} {j : Json}
  {ms : List (String × Json)}

@[simp] theorem record?_object (names : List String) : record? names (.object ms) = some ms := rfl

@[simp] theorem required?_cons_self : required? read name ((name, j) :: ms) = read j := by
  simp [required?]

@[simp] theorem required?_cons_of_ne (h : name ≠ other) :
    required? read name ((other, j) :: ms) = required? read name ms := by
  rw [required?, List.lookup_cons, beq_false_of_ne h]
  rfl

@[simp] theorem optional?_cons_of_ne (h : name ≠ other) :
    optional? read name ((other, j) :: ms) = optional? read name ms := by
  rw [optional?, List.lookup_cons, beq_false_of_ne h]
  rfl

@[simp] theorem optional?_cons_null : optional? read name ((name, .null) :: ms) = some none := by
  rw [optional?, List.lookup_cons_self]

theorem optional?_cons_self (h : j ≠ .null) :
    optional? read name ((name, j) :: ms) = (read j).map some := by
  rw [optional?, List.lookup_cons_self]
  cases j with
  | null => exact absurd rfl h
  | _ => rfl

/-- An optional text is read as it was written. -/
@[simp] theorem optional?_cons_text (text : Option String) :
    optional? text? name ((name, .ofOption text) :: ms) = some text := by
  cases text with
  | none => exact optional?_cons_null
  | some text => exact optional?_cons_self Json.noConfusion

end Members

/-! ## Locations, types and values -/

/-- The line and the column have 64 bits. -/
def FilePosition.Representable (p : FilePosition) : Prop :=
  p.position.line < 0x10000000000000000 ∧ p.position.column < 0x10000000000000000

instance (p : FilePosition) : Decidable p.Representable := inferInstanceAs (Decidable (_ ∧ _))

def SourceLocation.Representable : SourceLocation → Prop
  | .executable p => p.Representable
  | .schema p => p.Representable
  | .builtIn => True

instance : (l : SourceLocation) → Decidable l.Representable
  | .executable p => inferInstanceAs (Decidable p.Representable)
  | .schema p => inferInstanceAs (Decidable p.Representable)
  | .builtIn => inferInstanceAs (Decidable True)

/-- **The values that JSON can hold**: numbers are finite, and integers have 64 bits. -/
inductive Value.Representable : Value → Prop where
  | variable {name : String} : Representable (.variable name)
  | int {i : Int} : -0x8000000000000000 ≤ i → i < 0x8000000000000000 → Representable (.int i)
  | float {x : Binary64} : x.isFinite = true → Representable (.float x)
  | string {s : String} : Representable (.string s)
  | boolean {b : Bool} : Representable (.boolean b)
  | null : Representable .null
  | enum {name : String} : Representable (.enum name)
  | list {items : List Value} : (∀ v ∈ items, Representable v) → Representable (.list items)
  | object {entries : List (String × Value)} : (∀ e ∈ entries, Representable e.2) →
    Representable (.object entries)

theorem count?_int {n : Nat} (h : n < 0x10000000000000000) : count? (.int n) = some n := by
  rw [count?, if_pos (by omega)]
  rfl

/-- Counts are read however they are written. -/
theorem FilePosition.ofJson?_of_counts {p : FilePosition} {line column : Json}
    (hl : count? line = some p.position.line) (hc : count? column = some p.position.column) :
    ofJson? (.object [("col", column), ("file", .ofOption p.file), ("line", line)]) = some p := by
  simp [ofJson?, hl, hc]

theorem FilePosition.ofJson?_toJson {p : FilePosition} (h : p.Representable) :
    ofJson? p.toJson = some p :=
  ofJson?_of_counts (count?_int h.1) (count?_int h.2)

theorem SourceLocation.ofJsonIn?_toJson (context : Context) {l : SourceLocation}
    (h : l.Representable) : ofJsonIn? context l.toJson = some l := by
  cases l with
  | executable p => rw [toJson, ofJsonIn?, FilePosition.ofJson?_toJson h, Option.map_some]
  | «schema» p => rw [toJson, ofJsonIn?, FilePosition.ofJson?_toJson h, Option.map_some]
  | builtIn => rfl

theorem TypeRef.ofJsonAt?_toJson (t : TypeRef) :
    ∀ {n : Nat}, t.toJson.depth ≤ n → ofJsonAt? n t.toJson = some t := by
  induction t with
  | named nullable name =>
    intro n h
    obtain ⟨n, rfl⟩ := Json.exists_of_depth_le h
    rfl
  | list nullable inner ih =>
    intro n h
    obtain ⟨n, rfl⟩ := Json.exists_of_depth_le h
    have hbody := Json.depth_object_le h _ List.mem_cons_self
    have hinner := Json.depth_object_le (Nat.le_succ_of_le hbody) _ List.mem_cons_self
    simp [ofJsonAt?, toJson, ih hinner, flag?]

theorem TypeRef.ofJson?_toJson (t : TypeRef) : ofJson? t.toJson = some t :=
  t.ofJsonAt?_toJson (Nat.le_refl _)

theorem valuesToJson_eq_map (vs : List Value) : valuesToJson vs = vs.map Value.toJson := by
  induction vs with
  | nil => rfl
  | cons v vs ih => rw [valuesToJson, ih, List.map_cons]

theorem entriesToJson_eq_map (es : List (String × Value)) :
    entriesToJson es = es.map fun e => (e.1, e.2.toJson) := by
  induction es with
  | nil => rfl
  | cons e es ih => rw [entriesToJson, ih, List.map_cons]

theorem Value.ofJsonAt?_toJson (context : Context) {v : Value} (h : v.Representable) :
    ∀ {n : Nat}, v.toJson.depth ≤ n → ofJsonAt? context n v.toJson = some v := by
  induction h with
  | int hl hu =>
    intro n h
    obtain ⟨n, rfl⟩ := Json.exists_of_depth_le h
    simp [ofJsonAt?, toJson, Json.tagged, kindAndContent?, word?, List.lookup_cons, int64?,
      hl, hu]
  | float hx =>
    intro n h
    obtain ⟨n, rfl⟩ := Json.exists_of_depth_le h
    simp [ofJsonAt?, toJson, Json.tagged, kindAndContent?, word?, List.lookup_cons,
      Json.ofDouble, hx, double?]
  | @list items _ ih =>
    intro n h
    obtain ⟨n, rfl⟩ := Json.exists_of_depth_le h
    have hd := Json.depth_array_le
      (Json.depth_object_le h _ (List.mem_cons_of_mem _ List.mem_cons_self))
    rw [valuesToJson_eq_map, List.forall_mem_map] at hd
    have hread := mapM_write fun v hv => ih v hv (hd v hv)
    simp [ofJsonAt?, toJson, Json.tagged, kindAndContent?, word?, List.lookup_cons, list?,
      valuesToJson_eq_map, hread]
  | @object entries _ ih =>
    intro n h
    obtain ⟨n, rfl⟩ := Json.exists_of_depth_le h
    have hvalue := Json.depth_object_le h _ (List.mem_cons_of_mem _ List.mem_cons_self)
    have hd := Json.depth_object_le (Nat.le_succ_of_le hvalue)
    rw [entriesToJson_eq_map, List.forall_mem_map] at hd
    have hread : (entries.map fun e => (e.1, e.2.toJson)).mapM (fun m : String × Json =>
        (ofJsonAt? context n m.2).map fun v => (m.1, v)) = some entries :=
      mapM_write fun e he => by rw [ih e he (hd e he), Option.map_some]
    simp [ofJsonAt?, toJson, Json.tagged, kindAndContent?, word?, List.lookup_cons,
      entriesToJson_eq_map, hread]
  | _ =>
    intro n h
    obtain ⟨n, rfl⟩ := Json.exists_of_depth_le h
    rfl

theorem Value.ofJsonIn?_toJson (context : Context) {v : Value} (h : v.Representable) :
    ofJsonIn? context v.toJson = some v :=
  ofJsonAt?_toJson context h (Nat.le_refl _)

theorem Value.toJson_ne_null (v : Value) : v.toJson ≠ .null := by
  cases v <;> exact Json.noConfusion

/-- An optional value is read as it was written, and null is not taken for none. -/
theorem optional?_cons_value {value : Option Value} (h : ∀ v ∈ value, v.Representable)
    (name : String) (ms : List (String × Json)) :
    optional? Value.ofJson? name ((name, optionalValueToJson value) :: ms) = some value := by
  cases value with
  | none => exact optional?_cons_null
  | some v =>
    rw [optionalValueToJson, optional?_cons_self v.toJson_ne_null, Value.ofJson?,
      Value.ofJsonIn?_toJson .outside (h v rfl), Option.map_some]

theorem Condition.ofJsonIn?_toJson (context : Context) (c : Condition) :
    ofJsonIn? context c.toJson = some c := by
  simp [ofJsonIn?, toJson, recordOfKind?, kind?, text?, flag?]

theorem KeyScope.ofJsonIn?_word (context : Context) (scope : KeyScope) :
    ofJsonIn? context (.string scope.word) = some scope := by
  cases scope <;> rfl

theorem SelectionKey.ofJsonIn?_toJson (context : Context) (k : SelectionKey) :
    ofJsonIn? context k.toJson = some k := by
  have hscope := KeyScope.ofJsonIn?_word context k.scope
  simp [ofJsonIn?, toJson, hscope, list?_text, segments]

theorem Argument.ofJsonIn?_toJson (context : Context) {a : Argument} (h : a.value.Representable) :
    ofJsonIn? context a.toJson = some a := by
  have htype := a.type.ofJson?_toJson
  have hvalue := Value.ofJsonIn?_toJson context h
  simp [ofJsonIn?, toJson, text?, htype, hvalue]

/-! ## Fields and fragments -/

theorem fieldsToJson_eq_map (fs : List Field) : fieldsToJson fs = fs.map Field.toJson := by
  induction fs with
  | nil => rfl
  | cons f fs ih => rw [fieldsToJson, ih, List.map_cons]

theorem fragmentsToJson_eq_map (gs : List Fragment) :
    fragmentsToJson gs = gs.map Fragment.toJson := by
  induction gs with
  | nil => rfl
  | cons g gs ih => rw [fragmentsToJson, ih, List.map_cons]

/-- What a field holds besides other fields has a JSON form. -/
structure Field.Representable (f : Field) : Prop where
  arguments : ∀ a ∈ f.arguments, a.value.Representable
  location : f.location.Representable

theorem Fragment.ofJsonAt?_toJson (context : Context) {g : Fragment} {n : Nat}
    (h : ∀ c ∈ g.fields, Field.ofJsonAt? .insideFragment n c.toJson = some c) :
    ofJsonAt? context (n + 1) g.toJson = some g := by
  have hconditions : ∀ cs : List Condition,
      list? (Condition.ofJsonIn? .insideFragment) (conditionsToJson cs) = some cs := fun cs =>
    list?_write fun c _ => c.ofJsonIn?_toJson .insideFragment
  have hkeys : ∀ ks : OrderedSet SelectionKey,
      set? (SelectionKey.ofJsonIn? .insideFragment) (keysToJson ks) = some ks := fun ks =>
    set?_write fun k _ => k.ofJsonIn?_toJson .insideFragment
  have hfields := list?_write h
  rcases g with ⟨⟨conditions, description, fields, possibleTypes, keys, typeCondition⟩⟩ |
    ⟨⟨conditions, description, fields, name, possibleTypes, keys, typeConditions⟩⟩
  · rw [Fragment.fields] at hfields
    rw [toJson, fieldsToJson_eq_map]
    simp [ofJsonAt?, recordOfKind?, kind?, hconditions, hkeys, hfields, set?_text, text?]
  · rw [Fragment.fields] at hfields
    rw [toJson, fieldsToJson_eq_map]
    simp [ofJsonAt?, recordOfKind?, kind?, hconditions, hkeys, hfields, set?_text, list?_text,
      text?]

theorem Fragment.get?_fields (g : Fragment) :
    g.toJson.get? "fields" = some (.array (g.fields.map Field.toJson)) := by
  rcases g with ⟨⟨⟩⟩ | ⟨⟨⟩⟩ <;>
    simp [toJson, Json.get?, List.lookup_cons, fields, fieldsToJson_eq_map]

theorem Field.get?_fields (f : Field) :
    f.toJson.get? "fields" = some (.array (f.fields.map toJson)) := by
  cases f
  simp [toJson, Json.get?, List.lookup_cons, fieldsToJson_eq_map]

theorem Field.get?_fragments (f : Field) :
    f.toJson.get? "fragments" = some (.array (f.fragments.map Fragment.toJson)) := by
  cases f
  simp [toJson, Json.get?, List.lookup_cons, fragmentsToJson_eq_map]

/-- A field is read from its JSON form up to a depth at which what is below it is. -/
theorem Field.ofJsonAt?_of_below (context : Context) {f : Field} {n : Nat} (h : f.Representable)
    (hf : ∀ c ∈ f.fields, ofJsonAt? context n c.toJson = some c)
    (hg : ∀ g ∈ f.fragments, Fragment.ofJsonAt? context n g.toJson = some g) :
    ofJsonAt? context (n + 1) f.toJson = some f := by
  have harguments := list?_write fun a ha =>
    Argument.ofJsonIn?_toJson context (h.arguments a ha)
  have hlocation := SourceLocation.ofJsonIn?_toJson context h.location
  have hconditions : ∀ cs : List Condition,
      list? (Condition.ofJsonIn? context) (conditionsToJson cs) = some cs := fun cs =>
    list?_write fun c _ => c.ofJsonIn?_toJson context
  have hkeys : ∀ ks : OrderedSet SelectionKey,
      set? (SelectionKey.ofJsonIn? context) (keysToJson ks) = some ks := fun ks =>
    set?_write fun k _ => k.ofJsonIn?_toJson context
  have hfields := list?_write hf
  have hfragments := list?_write hg
  cases f
  rw [toJson, fieldsToJson_eq_map, fragmentsToJson_eq_map]
  simp [ofJsonAt?, harguments, hlocation, hconditions, hkeys, hfields, hfragments, text?,
    TypeRef.ofJson?_toJson]

/-- **Fields survive their JSON form**, at any depth. -/
theorem Field.ofJsonAt?_toJson {f : Field} (h : f.Everywhere Field.Representable) :
    ∀ (context : Context) {n : Nat}, f.toJson.depth ≤ n →
      ofJsonAt? context n f.toJson = some f := by
  induction f using Field.induction with
  | step f ih =>
    intro context n hn
    obtain ⟨hroot, hbelow⟩ := everywhere_iff.1 h
    obtain ⟨n, rfl⟩ := Json.exists_of_depth_le hn
    refine ofJsonAt?_of_below context hroot (fun c hc => ?_) fun g hg => ?_
    · have hd := Json.depth_array_le (Json.depth_get?_le f.get?_fields hn) _
        (List.mem_map_of_mem hc)
      have hsub : c ∈ f.subfields := mem_subfieldsOf.2 (.inl hc)
      exact ih c hsub (hbelow c hsub) context hd
    · have hd := Json.depth_array_le (Json.depth_get?_le f.get?_fragments hn) _
        (List.mem_map_of_mem hg)
      obtain ⟨m, rfl⟩ := Json.exists_of_depth_le hd
      refine Fragment.ofJsonAt?_toJson context fun c hc => ?_
      have hdc := Json.depth_array_le (Json.depth_get?_le g.get?_fields hd) _
        (List.mem_map_of_mem hc)
      have hsub : c ∈ f.subfields := mem_subfieldsOf.2 (.inr ⟨g, hg, hc⟩)
      exact ih c hsub (hbelow c hsub) .insideFragment hdc

theorem Field.ofJson?_toJson {f : Field} (h : f.Everywhere Field.Representable) :
    ofJson? f.toJson = some f :=
  ofJsonAt?_toJson h .outside (Nat.le_refl _)

theorem Fragment.ofJson?_toJson {g : Fragment}
    (h : ∀ c ∈ g.fields, c.Everywhere Field.Representable) : ofJson? g.toJson = some g := by
  obtain ⟨n, hn⟩ := Json.exists_of_depth_le (Nat.le_refl g.toJson.depth)
  rw [ofJson?, hn]
  refine ofJsonAt?_toJson .outside fun c hc => ?_
  have hd := Json.depth_array_le (Json.depth_get?_le g.get?_fields (Nat.le_of_eq hn)) _
    (List.mem_map_of_mem hc)
  exact Field.ofJsonAt?_toJson (h c hc) .insideFragment hd

/-! ## Definitions -/

/-- What is below a selection set has a JSON form, at any depth. -/
def SelectionSet.Representable (s : SelectionSet) : Prop :=
  ∀ c ∈ subfieldsOf s.fields s.fragments, c.Everywhere Field.Representable

structure NamedFragment.Representable (f : NamedFragment) : Prop where
  location : f.location.Representable
  selectionSet : f.selectionSet.Representable
  defaultSelectionSet : f.defaultSelectionSet.Representable

structure Operation.Representable (o : Operation) : Prop where
  location : o.location.Representable
  data : o.data.Everywhere Field.Representable
  defaults : ∀ v ∈ o.variableDefinitions, ∀ value ∈ v.default, value.Representable

/-- **The models that JSON can hold**: their numbers are finite, and their integers, lines
and columns have 64 bits. -/
structure DocumentModel.Representable (d : DocumentModel) : Prop where
  fragments : ∀ f ∈ d.fragments, f.Representable
  operations : ∀ o ∈ d.operations, o.Representable

theorem SelectionSet.ofJson?_toJson {s : SelectionSet} (h : s.Representable) :
    ofJson? s.toJson = some s := by
  have hfields := list?_write fun c hc => Field.ofJson?_toJson (h c (mem_subfieldsOf.2 (.inl hc)))
  have hfragments := list?_write fun g hg => Fragment.ofJson?_toJson fun c hc =>
    h c (mem_subfieldsOf.2 (.inr ⟨g, hg, hc⟩))
  have hkeys : set? SelectionKey.ofJson? (keysToJson s.keys) = some s.keys :=
    set?_write fun k _ => k.ofJsonIn?_toJson .outside
  simp [ofJson?, toJson, fieldsToJson_eq_map, fragmentsToJson_eq_map, hfields, hfragments, hkeys,
    set?_text, text?]

theorem NamedFragment.ofJson?_toJson {f : NamedFragment} (h : f.Representable) :
    ofJson? f.toJson = some f := by
  have hlocation := SourceLocation.ofJsonIn?_toJson .outside h.location
  have hset := SelectionSet.ofJson?_toJson h.selectionSet
  have hdefault := SelectionSet.ofJson?_toJson h.defaultSelectionSet
  simp [ofJson?, toJson, SourceLocation.ofJson?, hlocation, hset, hdefault, text?]

theorem Variable.ofJson?_toJson {v : Variable} (h : ∀ value ∈ v.default, value.Representable) :
    ofJson? v.toJson = some v := by
  have htype := v.type.ofJson?_toJson
  have hdefault := optional?_cons_value h
  simp [ofJson?, toJson, text?, htype, hdefault]

theorem OperationKind.ofJson?_toJson (k : OperationKind) : ofJson? k.toJson = some k := by
  cases k <;> rfl

theorem Operation.ofJson?_toJson {o : Operation} (h : o.Representable) :
    ofJson? o.toJson = some o := by
  have hlocation := SourceLocation.ofJsonIn?_toJson .outside h.location
  have hdata := Field.ofJson?_toJson h.data
  have hkind := o.kind.ofJson?_toJson
  have hvariables := list?_write fun v hv => Variable.ofJson?_toJson (h.defaults v hv)
  simp [ofJson?, toJson, SourceLocation.ofJson?, hlocation, hdata, hkind, hvariables, text?]

/-- **Models survive their JSON form.** -/
theorem DocumentModel.ofJson?_toJson {d : DocumentModel} (h : d.Representable) :
    ofJson? d.toJson = some d := by
  have hfragments := list?_write fun f hf => NamedFragment.ofJson?_toJson (h.fragments f hf)
  have hoperations := list?_write fun o ho => Operation.ofJson?_toJson (h.operations o ho)
  simp [ofJson?, toJson, hfragments, hoperations]

end SelectionModel
