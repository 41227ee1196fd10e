import Mathlib.Tactic.Choose
import SelectionModel.Proofs.Coercion.Steps

/-!
# Admissible values

Which values a type takes is said by the type alone, without a look at how a value is
brought into its form. A coercion succeeds on these and on no others, and what it gives
mirrors the value.

* `Admissible`: a value is admissible for a type.
* `CoercesTo`: what an admissible value becomes.
* `coercion_exact`: **coercion takes exactly the admissible values, and mirrors them.**
-/

namespace SelectionModel

/-- **A value is admissible for a type.** -/
inductive Admissible (schema : Schema) : Value → TypeRef → Prop where
  | ofVariable (name : String) (t : TypeRef) : Admissible schema (.variable name) t
  | null {t : TypeRef} : t.nullable = true → Admissible schema .null t
  | list {items : List Value} {nullable : Bool} {inner : TypeRef} :
    (∀ v ∈ items, Admissible schema v inner) →
    Admissible schema (.list items) (.list nullable inner)
  /-- A literal that is not a list stands for a list of itself. -/
  | single {v : Value} {nullable : Bool} {inner : TypeRef} :
    v.IsSingle → Admissible schema v inner → Admissible schema v (.list nullable inner)
  | builtIn {v r : Value} {nullable : Bool} {name : String} :
    ScalarOf v name r → Admissible schema v (.named nullable name)
  /-- The schema does not say which literals a scalar of its own takes. -/
  | scalar {v : Value} {nullable : Bool} {name : String} :
    v.IsLiteral → schema.custom? name = some .scalar → Admissible schema v (.named nullable name)
  | enum {member name : String} {members : List String} {nullable : Bool} :
    schema.custom? name = some (.enum members) → member ∈ members →
    Admissible schema (.enum member) (.named nullable name)
  /-- No entry but those of fields; every field is given, or may be left out. -/
  | object {es : List (String × Value)} {fields : List InputValueDefinition} {nullable : Bool}
      {name : String} :
    schema.custom? name = some (.inputObject fields) →
    (∀ e ∈ es, ∃ f ∈ fields, f.name = e.1) →
    (∀ f ∈ fields, ∀ v, es.lookup f.name = some v → Admissible schema v f.type) →
    (∀ f ∈ fields, es.lookup f.name = none → f.type.nullable = true ∨ f.default.isSome = true) →
    Admissible schema (.object es) (.named nullable name)

/-- The entry of a field in a coerced object: the result for the value that is given, or
the field's default as it is written. -/
def resultEntry (es : List (String × Value)) (result : InputValueDefinition → Value)
    (f : InputValueDefinition) : Option (String × Value) :=
  match es.lookup f.name with
  | some _ => some (f.name, result f)
  | none => f.default.map fun d => (f.name, d)

/-- **What a value becomes for a type**: the same value, with integers turned into
floating point numbers and identifiers where the type asks for it, with a list around a
value that stands for one, and with the entries of an object in the order of the fields. -/
inductive CoercesTo (schema : Schema) : Value → TypeRef → Value → Prop where
  | ofVariable (name : String) (t : TypeRef) : CoercesTo schema (.variable name) t (.variable name)
  | null {t : TypeRef} : t.nullable = true → CoercesTo schema .null t .null
  | list {items : List Value} {nullable : Bool} {inner : TypeRef} {result : Value → Value} :
    (∀ v ∈ items, CoercesTo schema v inner (result v)) →
    CoercesTo schema (.list items) (.list nullable inner) (.list (items.map result))
  | single {v r : Value} {nullable : Bool} {inner : TypeRef} :
    v.IsSingle → CoercesTo schema v inner r → CoercesTo schema v (.list nullable inner) (.list [r])
  | builtIn {v r : Value} {nullable : Bool} {name : String} :
    ScalarOf v name r → CoercesTo schema v (.named nullable name) r
  | scalar {v : Value} {nullable : Bool} {name : String} :
    v.IsLiteral → schema.custom? name = some .scalar → CoercesTo schema v (.named nullable name) v
  | enum {member name : String} {members : List String} {nullable : Bool} :
    schema.custom? name = some (.enum members) → member ∈ members →
    CoercesTo schema (.enum member) (.named nullable name) (.enum member)
  | object {es : List (String × Value)} {fields : List InputValueDefinition} {nullable : Bool}
      {name : String} {result : InputValueDefinition → Value} :
    schema.custom? name = some (.inputObject fields) →
    (∀ e ∈ es, ∃ f ∈ fields, f.name = e.1) →
    (∀ f ∈ fields, ∀ v, es.lookup f.name = some v → CoercesTo schema v f.type (result f)) →
    (∀ f ∈ fields, es.lookup f.name = none → f.type.nullable = true ∨ f.default.isSome = true) →
    CoercesTo schema (.object es) (.named nullable name)
      (.object (setInOrder (fields.map (resultEntry es result)) []))

variable {schema : Schema}

/-! ## Admissible values become something -/

/-- What becomes something is admissible. -/
theorem CoercesTo.admissible {v r : Value} {t : TypeRef} (h : CoercesTo schema v t r) :
    Admissible schema v t := by
  induction h with
  | ofVariable name t => exact .ofVariable name t
  | null h => exact .null h
  | list _ ih => exact .list ih
  | single hv _ ih => exact .single hv ih
  | builtIn h => exact .builtIn h
  | scalar hv h => exact .scalar hv h
  | enum h hm => exact .enum h hm
  | object h hknown _ hleft ih => exact .object h hknown ih hleft

/-- One result for each field that is given, whatever the others get. -/
theorem exists_result {fields : List InputValueDefinition} {es : List (String × Value)}
    {P : InputValueDefinition → Value → Value → Prop}
    (h : ∀ f ∈ fields, ∀ v, es.lookup f.name = some v → ∃ r, P f v r) :
    ∃ result : InputValueDefinition → Value,
      ∀ f ∈ fields, ∀ v, es.lookup f.name = some v → P f v (result f) := by
  choose! result hresult using h
  refine ⟨fun f => result f ((es.lookup f.name).getD default), ?_⟩
  intro f hf v hv
  simp only [hv, Option.getD_some]
  exact hresult f hf v hv

/-- What is admissible becomes something. -/
theorem Admissible.exists_coercesTo {v : Value} {t : TypeRef} (h : Admissible schema v t) :
    ∃ r, CoercesTo schema v t r := by
  induction h with
  | ofVariable name t => exact ⟨_, .ofVariable name t⟩
  | null h => exact ⟨_, .null h⟩
  | list _ ih =>
    choose! result hresult using ih
    exact ⟨_, .list hresult⟩
  | single hv _ ih =>
    obtain ⟨r, hr⟩ := ih
    exact ⟨_, .single hv hr⟩
  | builtIn h => exact ⟨_, .builtIn h⟩
  | scalar hv h => exact ⟨_, .scalar hv h⟩
  | enum h hm => exact ⟨_, .enum h hm⟩
  | @object es fields nullable name h hknown _ hleft ih =>
    obtain ⟨result, hresult⟩ := exists_result ih
    exact ⟨_, .object h hknown hresult hleft⟩

/-! ## Coercion -/

/-- A field is set to what it is given, else to its default, and else not at all. -/
theorem fieldSetting_eq_ok {type : String} {es : List (String × Value)}
    {f : InputValueDefinition} {o : Option (String × Value)} :
    fieldSetting type (entryCoercions schema es) f = .ok o ↔
      (∃ v r, es.lookup f.name = some v ∧ coerceValue schema v f.type = .ok r ∧
        o = some (f.name, r)) ∨
      (es.lookup f.name = none ∧ (f.type.nullable = true ∨ f.default.isSome = true) ∧
        o = f.default.map fun d => (f.name, d)) := by
  cases hes : es.lookup f.name with
  | some v =>
    rw [fieldSetting_given hes]
    cases hv : coerceValue schema v f.type with
    | error cause => simp [hv, Except.mapError, Except.map]
    | ok r => simp [hv, Except.mapError, Except.map, eq_comm (a := o)]
  | none =>
    cases hd : f.default with
    | some d =>
      rw [fieldSetting_default hes hd]
      simp [eq_comm (a := o)]
    | none =>
      rw [fieldSetting, lookup_entryCoercions, hes, hd]
      by_cases hn : f.type.nullable <;> simp [hn, eq_comm (a := o)]

/-- **An object is coerced when all of its entries are, and no field is missing.** -/
theorem coerceObject_eq_ok {type : String} {fields : List InputValueDefinition}
    {es : List (String × Value)} {r : Value} :
    coerceObject type fields (entryCoercions schema es) = .ok r ↔
      (∀ e ∈ es, ∃ f ∈ fields, f.name = e.1) ∧
      ∃ result : InputValueDefinition → Value,
        (∀ f ∈ fields, ∀ v, es.lookup f.name = some v →
          coerceValue schema v f.type = .ok (result f)) ∧
        (∀ f ∈ fields, es.lookup f.name = none →
          f.type.nullable = true ∨ f.default.isSome = true) ∧
        r = .object (setInOrder (fields.map (resultEntry es result)) []) := by
  rw [coerceObject_eq, ← unknownField?_eq_none]
  cases unknownField? fields es with
  | some name => simp
  | none =>
    simp only [true_and, Except.map_eq_ok, Except.mapM_eq_ok_map, fieldSetting_eq_ok]
    constructor
    · rintro ⟨_, ⟨setting, hsetting, rfl⟩, rfl⟩
      have hgiven : ∀ f ∈ fields, ∀ v, es.lookup f.name = some v →
          ∃ r, coerceValue schema v f.type = .ok r := by
        intro f hf v hv
        rcases hsetting f hf with ⟨w, r, hw, hr, -⟩ | ⟨hnone, -⟩
        · obtain rfl : v = w := Option.some.inj (hv.symm.trans hw)
          exact ⟨r, hr⟩
        · exact absurd (hv.symm.trans hnone) (Option.some_ne_none v)
      obtain ⟨result, hresult⟩ := exists_result hgiven
      refine ⟨result, hresult, ?_, ?_⟩
      · intro f hf hnone
        rcases hsetting f hf with ⟨w, r, hw, -⟩ | ⟨-, hleft, -⟩
        · exact absurd (hw.symm.trans hnone) (Option.some_ne_none w)
        · exact hleft
      · have hentries : fields.map setting = fields.map (resultEntry es result) := by
          apply List.map_congr_left
          intro f hf
          rw [resultEntry]
          rcases hsetting f hf with ⟨v, r, hv, hr, hentry⟩ | ⟨hnone, -, hentry⟩
          · obtain rfl : r = result f := Except.ok.inj (hr.symm.trans (hresult f hf v hv))
            rw [hv, hentry]
          · rw [hnone, hentry]
        rw [hentries]
    · rintro ⟨result, hgiven, hleft, rfl⟩
      refine ⟨_, ⟨resultEntry es result, ?_, rfl⟩, rfl⟩
      intro f hf
      rw [resultEntry]
      cases hv : es.lookup f.name with
      | some v => exact .inl ⟨v, result f, rfl, hgiven f hf v hv, rfl⟩
      | none => exact .inr ⟨rfl, hleft f hf hv, rfl⟩

/-- The coercion of a literal to a named type, when its entries are coerced to what they
become. -/
theorem coerceNamed_eq_ok {v r : Value} {nullable : Bool} {name : String} (hv : v.IsLiteral)
    (ih : ∀ e ∈ v.entries, ∀ t r, coerceValue schema e.2 t = .ok r ↔ CoercesTo schema e.2 t r) :
    coerceNamed schema v (entryCoercions schema v.entries) name = .ok r ↔
      CoercesTo schema v (.named nullable name) r := by
  constructor
  · intro hr
    by_cases hname : name ∈ builtInScalars
    · exact .builtIn ((coerceNamed_builtIn hname).1 hr)
    · obtain ⟨body, hbody⟩ := exists_body_of_coerceNamed hr hname
      rcases (coerceNamed_custom hbody).1 hr with ⟨rfl, rfl⟩ |
        ⟨members, n, rfl, hn, rfl, rfl⟩ | ⟨fields, es, rfl, rfl, hr⟩
      · exact .scalar hv hbody
      · exact .enum hbody hn
      · obtain ⟨hknown, result, hgiven, hleft, rfl⟩ := coerceObject_eq_ok.1 hr
        refine .object hbody hknown ?_ hleft
        intro f hf w hw
        exact (ih (f.name, w) (Entries.mem_of_lookup hw) f.type _).1 (hgiven f hf w hw)
  · intro h
    cases h with
    | builtIn h => exact (coerceNamed_builtIn h.mem_builtInScalars).2 h
    | scalar _ h => exact (coerceNamed_custom h).2 (.inl ⟨rfl, rfl⟩)
    | enum h hm => exact (coerceNamed_custom h).2 (.inr (.inl ⟨_, _, rfl, hm, rfl, rfl⟩))
    | object h hknown hgiven hleft =>
      refine (coerceNamed_custom h).2 (.inr (.inr ⟨_, _, rfl, rfl, ?_⟩))
      refine coerceObject_eq_ok.2 ⟨hknown, _, ?_, hleft, rfl⟩
      intro f hf w hw
      exact (ih (f.name, w) (Entries.mem_of_lookup hw) f.type _).2 (hgiven f hf w hw)
    | ofVariable | null => exact hv.elim

/-- **A value is coerced to what it becomes.** -/
theorem coerceValue_eq_ok {v r : Value} {t : TypeRef} :
    coerceValue schema v t = .ok r ↔ CoercesTo schema v t r := by
  induction v, t using Value.induction_at generalizing r with
  | var n t =>
    rw [coerceValue]
    constructor
    · intro h
      obtain rfl := Except.ok.inj h
      exact .ofVariable n t
    · intro h
      cases h with
      | ofVariable => rfl
      | single hv => exact hv.elim
      | builtIn h => cases h
      | scalar hv => exact hv.elim
  | null t =>
    rw [coerceValue]
    constructor
    · intro h
      split at h
      · next hn =>
        obtain rfl := Except.ok.inj h
        exact .null hn
      · cases h
    · intro h
      cases h with
      | null hn => rw [if_pos hn]
      | single hv => exact hv.elim
      | builtIn h => cases h
      | scalar hv => exact hv.elim
  | list b items inner ih =>
    rw [coerceValue_list, Except.map_eq_ok]
    simp only [Except.mapM_eq_ok_map]
    constructor
    · rintro ⟨_, ⟨result, hresult, rfl⟩, rfl⟩
      exact .list fun v hv => (ih v hv).1 (hresult v hv)
    · intro h
      cases h with
      | @list _ _ _ result h => exact ⟨_, ⟨result, fun v hv => (ih v hv).2 (h v hv), rfl⟩, rfl⟩
      | single hv => exact hv.elim
  | single v b inner hv ih =>
    rw [coerceValue_single hv, Except.map_eq_ok]
    constructor
    · rintro ⟨r, hr, rfl⟩
      exact .single hv (ih.1 hr)
    · intro h
      cases h with
      | single _ h => exact ⟨_, ih.2 h, rfl⟩
      | ofVariable | null | list => exact hv.elim
  | named v b name hv ih =>
    rw [coerceValue_named hv]
    exact coerceNamed_eq_ok hv fun e he t r => ih e he t

/-- **Coercion takes exactly the admissible values**, and gives what they become. -/
theorem coercion_exact (schema : Schema) (v : Value) (t : TypeRef) :
    ((∃ r, coerceValue schema v t = .ok r) ↔ Admissible schema v t) ∧
      ∀ r, coerceValue schema v t = .ok r ↔ CoercesTo schema v t r := by
  constructor
  · constructor
    · rintro ⟨r, hr⟩
      exact (coerceValue_eq_ok.1 hr).admissible
    · intro h
      obtain ⟨r, hr⟩ := h.exists_coercesTo
      exact ⟨r, coerceValue_eq_ok.2 hr⟩
  · intro r
    exact coerceValue_eq_ok

end SelectionModel
