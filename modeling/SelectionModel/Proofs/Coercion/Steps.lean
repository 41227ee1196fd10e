import SelectionModel.Lowering.Coercion
import SelectionModel.Schema.Draft
import SelectionModel.Proofs.Steps

/-!
# Steps of a coercion

A coercion goes down a value and a type together: into the items of a list, into the item
type where a single value stands for a list, and from the name of an input type into the
entries of an object.

* `Value.induction_at`: the induction along these steps.
* `coerceValue_single`, `coerceValue_named`: the steps as equations.
* `coerceFields_eq`: the fields of an object are settled one by one, then set in order.
-/

namespace SelectionModel

/-! ## Kinds of values -/

namespace Value

/-- A literal: neither null nor a variable. -/
def IsLiteral : Value → Prop
  | .variable _ => False
  | .null => False
  | _ => True

/-- A literal that is not a list. It may stand for a list of itself. -/
def IsSingle : Value → Prop
  | .list _ => False
  | v => v.IsLiteral

/-- The entries of an object. -/
def entries : Value → List (String × Value)
  | .object es => es
  | _ => []

theorem IsSingle.isLiteral {v : Value} (h : v.IsSingle) : v.IsLiteral := by
  cases v <;> first | exact h | exact h.elim

theorem sizeOf_of_mem_entries {v : Value} {e : String × Value} (h : e ∈ v.entries) :
    sizeOf e.2 < sizeOf v := by
  cases v with
  | object es =>
    have hlt : sizeOf e < sizeOf es := List.sizeOf_lt_of_mem h
    have hsnd : sizeOf e.2 < sizeOf e := by
      obtain ⟨n, w⟩ := e
      show sizeOf w < sizeOf (n, w)
      rw [Prod.mk.sizeOf_spec]
      omega
    rw [Value.object.sizeOf_spec]
    omega
  | _ => exact absurd h List.not_mem_nil

/-- A value is a variable, null, a list or a single literal. -/
theorem exists_kind (v : Value) :
    (∃ n, v = .variable n) ∨ v = .null ∨ (∃ items, v = .list items) ∨ v.IsSingle := by
  match v with
  | .variable n => exact .inl ⟨n, rfl⟩
  | .null => exact .inr (.inl rfl)
  | .list items => exact .inr (.inr (.inl ⟨items, rfl⟩))
  | .int _ | .float _ | .string _ | .boolean _ | .enum _ | .object _ =>
    exact .inr (.inr (.inr trivial))

/-- **Induction along a coercion.** A list hands its items on to the item type, a single
value is handed on to the item type itself, and an object hands its entries on to any
type, as a type may contain itself. -/
theorem induction_at {P : Value → TypeRef → Prop}
    (var : ∀ n t, P (.variable n) t) (null : ∀ t, P .null t)
    (list : ∀ b items inner, (∀ v ∈ items, P v inner) → P (.list items) (.list b inner))
    (single : ∀ v b inner, v.IsSingle → P v inner → P v (.list b inner))
    (named : ∀ v b name, v.IsLiteral → (∀ e ∈ v.entries, ∀ t, P e.2 t) → P v (.named b name))
    (v : Value) (t : TypeRef) : P v t := by
  -- on the size of the value, and for one value on its type
  induction hn : sizeOf v using Nat.strongRecOn generalizing v t with
  | ind n ih =>
    induction t with
    | named b name =>
      have hentries : ∀ e ∈ v.entries, ∀ t, P e.2 t := by
        intro e he t
        exact ih (sizeOf e.2) (hn ▸ sizeOf_of_mem_entries he) e.2 t rfl
      rcases v.exists_kind with ⟨x, rfl⟩ | rfl | ⟨items, rfl⟩ | h
      · exact var x (.named b name)
      · exact null (.named b name)
      · exact named (.list items) b name trivial hentries
      · exact named v b name h.isLiteral hentries
    | list b inner ihInner =>
      rcases v.exists_kind with ⟨x, rfl⟩ | rfl | ⟨items, rfl⟩ | h
      · exact var x (.list b inner)
      · exact null (.list b inner)
      · apply list b items inner
        intro w hw
        have hlt : sizeOf w < sizeOf items := List.sizeOf_lt_of_mem hw
        refine ih (sizeOf w) ?_ w inner rfl
        rw [← hn, Value.list.sizeOf_spec]
        omega
      · exact single v b inner h ihInner

end Value

variable {schema : Schema}

/-! ## The steps as equations -/

/-- A single value for a list type is coerced to the item type and put into a list. -/
theorem coerceValue_single {v : Value} (h : v.IsSingle) (b : Bool) (inner : TypeRef) :
    coerceValue schema v (.list b inner) =
      (coerceValue schema v inner).map fun r => .list [r] := by
  have hmap : ∀ x : Except CoercionError Value,
      x.map (wrapInLists (.list b inner)) = (x.map (wrapInLists inner)).map fun r => .list [r] := by
    intro x
    cases x <;> rfl
  cases v <;> first
    | exact h.elim
    | simp only [coerceValue, TypeRef.innermostName, hmap]

/-- A literal is coerced to a named type by the name alone. -/
theorem coerceValue_named {v : Value} (h : v.IsLiteral) (b : Bool) (name : String) :
    coerceValue schema v (.named b name) =
      coerceNamed schema v (entryCoercions schema v.entries) name := by
  have hmap : ∀ x : Except CoercionError Value, x.map (wrapInLists (.named b name)) = x := by
    intro x
    cases x <;> rfl
  cases v <;> first
    | exact h.elim
    | simp only [coerceValue, TypeRef.innermostName, Value.entries, entryCoercions, hmap]

theorem coerceItems_eq (items : List Value) (inner : TypeRef) :
    coerceItems schema items inner = items.mapM fun v => coerceValue schema v inner := by
  induction items with
  | nil => rw [coerceItems]; rfl
  | cons v items ih =>
    rw [coerceItems, List.mapM_cons, ih]
    cases coerceValue schema v inner with
    | error e => rfl
    | ok r => cases items.mapM fun v => coerceValue schema v inner <;> rfl

theorem coerceValue_list (items : List Value) (b : Bool) (inner : TypeRef) :
    coerceValue schema (.list items) (.list b inner) =
      (items.mapM fun v => coerceValue schema v inner).map .list := by
  rw [coerceValue, coerceItems_eq]

/-! ## Objects -/

theorem entryCoercions_eq (es : List (String × Value)) :
    entryCoercions schema es = es.map fun e => (e.1, coerceValue schema e.2) := by
  induction es with
  | nil => rw [entryCoercions]; rfl
  | cons e es ih =>
    obtain ⟨n, v⟩ := e
    rw [entryCoercions, ih]
    rfl

theorem lookup_entryCoercions (es : List (String × Value)) (name : String) :
    (entryCoercions schema es).lookup name = (es.lookup name).map (coerceValue schema) := by
  rw [entryCoercions_eq]
  induction es with
  | nil => rfl
  | cons e es ih =>
    obtain ⟨n, v⟩ := e
    rw [List.map_cons, Entries.lookup_entry, Entries.lookup_entry, ih]
    split <;> rfl

/-- What a field of an input type is set to: the value given for it, else its default. A
field that may be null can do without. -/
def fieldSetting (type : String) (given : List (String × ValueCoercion))
    (f : InputValueDefinition) : Except CoercionError (Option (String × Value)) :=
  match given.lookup f.name, f.default with
  | some coerce, _ =>
    match coerce f.type with
    | .ok v => .ok (some (f.name, v))
    | .error cause => .error (.inField type f.name cause)
  | none, some v => .ok (some (f.name, v))
  | none, none =>
    if f.type.nullable then .ok none else .error (.missingField type f.name)

/-- A field that is given is set to the coerced value, and is at fault if that fails. -/
theorem fieldSetting_given {type : String} {es : List (String × Value)}
    {f : InputValueDefinition} {v : Value} (h : es.lookup f.name = some v) :
    fieldSetting type (entryCoercions schema es) f =
      ((coerceValue schema v f.type).mapError (.inField type f.name)).map
        fun r => some (f.name, r) := by
  rw [fieldSetting, lookup_entryCoercions, h]
  simp only [Option.map_some]
  cases coerceValue schema v f.type <;> rfl

/-- A field that is left out is set to its default as it is written. -/
theorem fieldSetting_default {type : String} {es : List (String × Value)}
    {f : InputValueDefinition} {d : Value} (h : es.lookup f.name = none)
    (hd : f.default = some d) :
    fieldSetting type (entryCoercions schema es) f = .ok (some (f.name, d)) := by
  rw [fieldSetting, lookup_entryCoercions, h, hd]
  rfl

/-- What a field is set to stands under its name. -/
theorem name_of_fieldSetting {type : String} {given : List (String × ValueCoercion)}
    {f : InputValueDefinition} {e : String × Value}
    (h : fieldSetting type given f = .ok (some e)) : e.1 = f.name := by
  unfold fieldSetting at h
  split at h
  · split at h
    · obtain rfl := Option.some.inj (Except.ok.inj h)
      rfl
    · cases h
  · obtain rfl := Option.some.inj (Except.ok.inj h)
    rfl
  · split at h <;> cases h

/-- Sets those that have a value, in order. -/
def setInOrder (settings : List (Option (String × Value))) (done : List (String × Value)) :
    List (String × Value) :=
  settings.reduceOption.foldl (fun done e => Entries.set e.1 e.2 done) done

/-- **The fields of an object are settled one by one, then set in order.** -/
theorem coerceFields_eq (type : String) (given : List (String × ValueCoercion))
    (fields : List InputValueDefinition) (done : List (String × Value)) :
    coerceFields type given fields done =
      (fields.mapM (fieldSetting type given)).map fun settings => setInOrder settings done := by
  induction fields generalizing done with
  | nil => rfl
  | cons f fields ih =>
    have hcons : ∀ o, (fields.mapM (fieldSetting type given)).map (fun settings =>
          setInOrder (o :: settings) done) =
        (pure o >>= fun o => fields.mapM (fieldSetting type given) >>= fun settings =>
          pure (o :: settings)).map fun settings => setInOrder settings done := by
      intro o
      cases fields.mapM (fieldSetting type given) <;> rfl
    rw [coerceFields, List.mapM_cons, fieldSetting]
    cases given.lookup f.name with
    | some coerce =>
      cases hv : coerce f.type with
      | error cause => simp only [hv]; rfl
      | ok v =>
        simp only [hv, ih]
        exact hcons (some (f.name, v))
    | none =>
      cases f.default with
      | some v =>
        simp only [ih]
        exact hcons (some (f.name, v))
      | none =>
        by_cases hn : f.type.nullable
        · simp only [hn, ih, if_true]
          exact hcons none
        · simp only [hn]
          rfl

/-- The first name in an object that is none of a field of its type. -/
def unknownField? (fields : List InputValueDefinition) (es : List (String × Value)) :
    Option String :=
  (es.map Prod.fst).find? fun n => !(fields.any fun f => f.name == n)

theorem unknownField?_eq_none {fields : List InputValueDefinition} {es : List (String × Value)} :
    unknownField? fields es = none ↔ ∀ e ∈ es, ∃ f ∈ fields, f.name = e.1 := by
  rw [unknownField?, List.find?_eq_none, List.forall_mem_map]
  simp only [Bool.not_eq_true', Bool.not_eq_false, List.any_eq_true, beq_iff_eq]

theorem coerceObject_eq (type : String) (fields : List InputValueDefinition)
    (es : List (String × Value)) :
    coerceObject type fields (entryCoercions schema es) =
      match unknownField? fields es with
      | some name => .error (.unknownField type name)
      | none => (fields.mapM (fieldSetting type (entryCoercions schema es))).map
          fun settings => .object (setInOrder settings []) := by
  have hfind : ((entryCoercions schema es).find? fun e =>
      !(fields.any fun f => f.name == e.1)).map Prod.fst = unknownField? fields es := by
    rw [unknownField?, entryCoercions_eq, List.find?_map, List.find?_map, Option.map_map]
    rfl
  rw [coerceObject, ← hfind, coerceFields_eq]
  cases (entryCoercions schema es).find? fun e => !(fields.any fun f => f.name == e.1) with
  | some e => rfl
  | none => cases fields.mapM (fieldSetting type (entryCoercions schema es)) <;> rfl

/-! ## Named types -/

/-- **What a literal gives for a built-in scalar.** An integer stands for a floating point
number, and for an identifier, which is always a string. -/
inductive ScalarOf : Value → String → Value → Prop where
  | int {i : Int} : -0x80000000 ≤ i → i < 0x80000000 → ScalarOf (.int i) "Int" (.int i)
  | float (x : Binary64) : ScalarOf (.float x) "Float" (.float x)
  | intAsFloat (i : Int) : ScalarOf (.int i) "Float" (.float (Binary64.ofInt i))
  | string (s : String) : ScalarOf (.string s) "String" (.string s)
  | boolean (b : Bool) : ScalarOf (.boolean b) "Boolean" (.boolean b)
  | idString (s : String) : ScalarOf (.string s) "ID" (.string s)
  | idInt (i : Int) : ScalarOf (.int i) "ID" (.string (toString i))

theorem ScalarOf.mem_builtInScalars {v r : Value} {name : String} (h : ScalarOf v name r) :
    name ∈ builtInScalars := by
  cases h <;> simp [builtInScalars]

/-- What the schema says of a type that is none of the built-in scalars. -/
def Schema.custom? (schema : Schema) (name : String) : Option TypeBody :=
  if name ∈ builtInScalars then none else (schema.type? name).map TypeDefinition.body

theorem Schema.custom?_eq_some {name : String} {body : TypeBody} :
    schema.custom? name = some body ↔
      name ∉ builtInScalars ∧ (schema.type? name).map TypeDefinition.body = some body := by
  rw [custom?]
  split <;> simp [*]

section Named

variable {v r : Value} {given : List (String × ValueCoercion)} {name : String}

theorem coerceNamed_builtIn (h : name ∈ builtInScalars) :
    coerceNamed schema v given name = .ok r ↔ ScalarOf v name r := by
  constructor
  · intro hr
    simp only [builtInScalars, List.mem_cons, List.not_mem_nil, or_false] at h
    rcases h with rfl | rfl | rfl | rfl | rfl
    · cases v with
      | boolean b =>
        obtain rfl : .boolean b = r := by simpa [coerceNamed] using hr
        exact .boolean b
      | _ => simp [coerceNamed] at hr
    · cases v with
      | float x =>
        obtain rfl : .float x = r := by simpa [coerceNamed] using hr
        exact .float x
      | int i =>
        obtain rfl : .float (Binary64.ofInt i) = r := by simpa [coerceNamed] using hr
        exact .intAsFloat i
      | _ => simp [coerceNamed] at hr
    · cases v with
      | string s =>
        obtain rfl : .string s = r := by simpa [coerceNamed] using hr
        exact .idString s
      | int i =>
        obtain rfl : .string (toString i) = r := by simpa [coerceNamed] using hr
        exact .idInt i
      | _ => simp [coerceNamed] at hr
    · cases v with
      | int i =>
        rw [coerceNamed] at hr
        split at hr
        · next hfit =>
          obtain ⟨hlow, hhigh⟩ := of_decide_eq_true hfit
          obtain rfl := Except.ok.inj hr
          exact .int hlow hhigh
        · cases hr
      | _ => simp [coerceNamed] at hr
    · cases v with
      | string s =>
        obtain rfl : .string s = r := by simpa [coerceNamed] using hr
        exact .string s
      | _ => simp [coerceNamed] at hr
  · intro hr
    cases hr with
    | int hlow hhigh =>
      have hfit : fitsInt32 _ = true := decide_eq_true ⟨hlow, hhigh⟩
      simp [coerceNamed, hfit]
    | _ => simp [coerceNamed]

/-- An object of an input type that the schema defines. -/
theorem coerceNamed_inputObject {fields : List InputValueDefinition}
    (h : schema.custom? name = some (.inputObject fields)) (es : List (String × Value)) :
    coerceNamed schema (.object es) given name = coerceObject name fields given := by
  obtain ⟨hname, hbody⟩ := Schema.custom?_eq_some.1 h
  obtain ⟨t, ht, hb⟩ := Option.map_eq_some_iff.1 hbody
  unfold coerceNamed
  split
  case h_6 =>
    rw [ht]
    dsimp only
    rw [hb]
  all_goals simp [builtInScalars] at hname

/-- A literal of a type that the schema defines. -/
theorem coerceNamed_custom {body : TypeBody} (h : schema.custom? name = some body) :
    coerceNamed schema v given name = .ok r ↔
      (body = .scalar ∧ r = v) ∨
      (∃ members n, body = .enum members ∧ n ∈ members ∧ v = .enum n ∧ r = .enum n) ∨
      (∃ fields es, body = .inputObject fields ∧ v = .object es ∧
        coerceObject name fields given = .ok r) := by
  obtain ⟨hname, hbody⟩ := Schema.custom?_eq_some.1 h
  obtain ⟨t, ht, rfl⟩ := Option.map_eq_some_iff.1 hbody
  unfold coerceNamed
  split
  case h_6 =>
    rw [ht]
    dsimp only
    cases t.body with
    | scalar => simp [eq_comm (a := v)]
    | enum members =>
      cases v with
      | enum n => by_cases hn : n ∈ members <;> simp [hn, eq_comm (a := r)]
      | _ => simp
    | inputObject fields =>
      cases v with
      | object es => simp
      | _ => simp
    | _ => simp
  all_goals simp [builtInScalars] at hname

/-- A name that the schema does not define, or not as an input type, takes no value. -/
theorem exists_body_of_coerceNamed (hr : coerceNamed schema v given name = .ok r)
    (h : name ∉ builtInScalars) : ∃ body, schema.custom? name = some body := by
  unfold coerceNamed at hr
  split at hr
  case h_6 =>
    cases ht : schema.type? name with
    | none => simp [ht] at hr
    | some t => exact ⟨t.body, Schema.custom?_eq_some.2 ⟨h, by rw [ht]; rfl⟩⟩
  all_goals simp [builtInScalars] at h

end Named

/-- An object for an input type is coerced entry by entry. -/
theorem coerceValue_object {nullable : Bool} {name : String} {fields : List InputValueDefinition}
    (h : schema.custom? name = some (.inputObject fields)) (es : List (String × Value)) :
    coerceValue schema (.object es) (.named nullable name) =
      coerceObject name fields (entryCoercions schema es) := by
  have hliteral : (Value.object es).IsLiteral := trivial
  rw [coerceValue_named hliteral, coerceNamed_inputObject h, Value.entries]

end SelectionModel
