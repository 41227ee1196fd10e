import SelectionModel.Proofs.Coercion.Steps
import SelectionModel.Proofs.Sample

/-!
# Defaults of fields

A field that an object leaves out is set to its default as the schema writes it, while a
field that is given is coerced to its type. So leaving a field out is the same as writing
its default just where the coercion of the default leaves it as it is.

* `WritesDefault`: two values, one of which writes a default that the other leaves out.
* `omitted_default`: **such values are taken alike, and become the same exactly when the
  default is its own coercion.**
-/

namespace SelectionModel

/-! ## Results that are the same under a condition -/

section SameIff

variable {ε ε' α β : Type} {P : Prop} {x y : Except ε α}

/-- **Two computations fail alike, or give results that are the same just under a
condition.** -/
inductive Except.SameIff (P : Prop) : Except ε α → Except ε α → Prop where
  | error (e : ε) : SameIff P (.error e) (.error e)
  | ok {a b : α} : (a = b ↔ P) → SameIff P (.ok a) (.ok b)

namespace Except.SameIff

theorem map {F : α → β} (hF : Function.Injective F) (h : SameIff P x y) :
    SameIff P (x.map F) (y.map F) := by
  cases h with
  | error e => exact .error e
  | ok h => exact .ok (hF.eq_iff.trans h)

theorem mapError (F : ε → ε') (h : SameIff P x y) : SameIff P (x.mapError F) (y.mapError F) := by
  cases h with
  | error e => exact .error (F e)
  | ok h => exact .ok h

theorem eq_of (h : SameIff P x y) (hP : P) : x = y := by
  cases h with
  | error e => rfl
  | ok h => rw [h.2 hP]

/-- Two that give the same meet the condition. -/
theorem of_eq_ok {a : α} (h : SameIff P x y) (hx : x = .ok a) (hy : y = .ok a) : P := by
  cases h with
  | error e => cases hx
  | ok h => exact h.1 (Except.ok.inj (hx.trans hy.symm))

theorem sameUpTo (h : SameIff P x y) : SameUpTo Eq (fun _ => ()) x y := by
  cases h with
  | error e => exact .error rfl
  | ok h => exact .ok rfl

theorem of_sameUpTo (h : SameUpTo Eq (fun _ => ()) x y) (hP : P → x = y)
    (hok : ∀ a, x = .ok a → y = .ok a → P) : SameIff P x y := by
  cases h with
  | error h =>
    obtain rfl := h
    exact .error _
  | ok h =>
    refine .ok ⟨?_, ?_⟩
    · rintro rfl
      exact hok _ rfl rfl
    · intro h
      exact Except.ok.inj (hP h)

/-- Lists of steps that differ in one step. -/
theorem mapM_append {f : α → Except ε β} {v w : α} (h : SameIff P (f v) (f w))
    (before after : List α) :
    SameIff P ((before ++ v :: after).mapM f) ((before ++ w :: after).mapM f) := by
  simp only [List.mapM_append, List.mapM_cons]
  generalize f v = x at h
  generalize f w = y at h
  cases before.mapM f with
  | error e => exact .error e
  | ok bs =>
    cases h with
    | error e => exact .error e
    | ok h =>
      cases after.mapM f with
      | error e => exact .error e
      | ok cs => exact .ok (by simpa using h)

end Except.SameIff

end SameIff

variable {schema : Schema} {P : Prop}

/-! ## Objects that differ in one field -/

/-- A value stays when no other is set for its name. -/
theorem lookup_setInOrder {settings : List (Option (String × Value))}
    {done : List (String × Value)} {name : String} {v : Value}
    (h : some (name, v) ∈ settings ∨ done.lookup name = some v)
    (honly : ∀ e, some e ∈ settings → e.1 = name → e.2 = v) :
    (setInOrder settings done).lookup name = some v := by
  induction settings generalizing done with
  | nil => exact h.resolve_left List.not_mem_nil
  | cons o settings ih =>
    have hrest : ∀ e, some e ∈ settings → e.1 = name → e.2 = v := fun e he =>
      honly e (List.mem_cons_of_mem o he)
    cases o with
    | none => exact ih (h.imp_left fun h => by simpa using h) hrest
    | some e =>
      have hset : some (name, v) ∈ settings ∨
          (Entries.set e.1 e.2 done).lookup name = some v := by
        rw [Entries.lookup_set]
        split
        · next hname => exact .inr (congrArg some (honly e List.mem_cons_self hname.symm))
        · next hname =>
          refine h.imp_left fun h => (List.mem_cons.1 h).resolve_left ?_
          intro he
          exact hname (congrArg Prod.fst (Option.some.inj he))
      exact ih hset hrest

section Objects

variable {type : String} {fields : List InputValueDefinition} {f : InputValueDefinition}

/-- A field without another definition has in the object what it was set to. -/
theorem lookup_of_mapM {given : List (String × ValueCoercion)} {x : Except CoercionError Value}
    {settings : List (Option (String × Value))} (hf : f ∈ fields)
    (honly : ∀ g ∈ fields, g.name = f.name → g = f)
    (hx : fieldSetting type given f = x.map fun r => some (f.name, r))
    (hs : fields.mapM (fieldSetting type given) = .ok settings) :
    ∃ r, x = .ok r ∧ (setInOrder settings []).lookup f.name = some r := by
  obtain ⟨setting, hsetting, rfl⟩ := Except.mapM_eq_ok_map.1 hs
  obtain ⟨r, hr, hfr⟩ := Except.map_eq_ok.1 (hx.symm.trans (hsetting f hf))
  refine ⟨r, hr, lookup_setInOrder (.inl (List.mem_map.2 ⟨f, hf, hfr.symm⟩)) ?_⟩
  intro e he hname
  obtain ⟨g, hg, hge⟩ := List.mem_map.1 he
  have hgname : e.1 = g.name := name_of_fieldSetting ((hsetting g hg).trans (congrArg _ hge))
  obtain rfl := honly g hg (hgname.symm.trans hname)
  have heq : some (g.name, r) = some e := hfr.trans hge
  exact congrArg Prod.snd (Option.some.inj heq).symm

/-- **Two objects that differ in one field are the same just when they agree there.** -/
theorem coerceObject_sameIff {es es' : List (String × Value)} {x y : Except CoercionError Value}
    (hf : f ∈ fields) (honly : ∀ g ∈ fields, g.name = f.name → g = f)
    (hunknown : unknownField? fields es' = unknownField? fields es)
    (hothers : ∀ name, name ≠ f.name → es'.lookup name = es.lookup name)
    (hx : fieldSetting type (entryCoercions schema es) f = x.map fun r => some (f.name, r))
    (hy : fieldSetting type (entryCoercions schema es') f = y.map fun r => some (f.name, r))
    (h : Except.SameIff P x y) :
    Except.SameIff P (coerceObject type fields (entryCoercions schema es))
      (coerceObject type fields (entryCoercions schema es')) := by
  have hothers : ∀ g ∈ fields, g ≠ f → fieldSetting type (entryCoercions schema es) g =
      fieldSetting type (entryCoercions schema es') g := by
    intro g hg hne
    have hname : g.name ≠ f.name := fun hname => hne (honly g hg hname)
    simp only [fieldSetting, lookup_entryCoercions, hothers g.name hname]
  have hinj : Function.Injective fun r : Value => some (f.name, r) := by
    intro r r' hr
    exact congrArg Prod.snd (Option.some.inj hr)
  rw [coerceObject_eq, coerceObject_eq, hunknown]
  cases unknownField? fields es with
  | some name => exact .error _
  | none =>
    refine .of_sameUpTo ?_ ?_ ?_
    · refine (Except.SameUpTo.mapM (G := fun _ => ()) ?_).map fun _ _ _ => rfl
      intro g hg
      by_cases hgf : g = f
      · rw [hgf, hx, hy]
        exact (h.map hinj).sameUpTo
      · rw [hothers g hg hgf]
        exact .refl (fun _ => rfl) _
    · intro hP
      have hfields : fields.mapM (fieldSetting type (entryCoercions schema es)) =
          fields.mapM (fieldSetting type (entryCoercions schema es')) := by
        refine Except.mapM_congr fun g hg => ?_
        by_cases hgf : g = f
        · rw [hgf, hx, hy, h.eq_of hP]
        · exact hothers g hg hgf
      rw [hfields]
    · intro a ha ha'
      obtain ⟨settings, hs, rfl⟩ := Except.map_eq_ok.1 ha
      obtain ⟨settings', hs', heq⟩ := Except.map_eq_ok.1 ha'
      obtain ⟨r, hr, hlookup⟩ := lookup_of_mapM hf honly hx hs
      obtain ⟨r', hr', hlookup'⟩ := lookup_of_mapM hf honly hy hs'
      rw [Value.object.inj heq, hlookup] at hlookup'
      obtain rfl := Option.some.inj hlookup'
      exact h.of_eq_ok hr hr'

end Objects

/-- Adding an entry that a field takes adds no name that is unknown. -/
theorem unknownField?_insertSorted {fields : List InputValueDefinition} {f : InputValueDefinition}
    {es : List (String × Value)} (hf : f ∈ fields) (h : es.lookup f.name = none) (d : Value) :
    unknownField? fields (Entries.insertSorted f.name d es) = unknownField? fields es := by
  have hknown : (!(fields.any fun g => g.name == f.name)) = false := by
    rw [Bool.not_eq_false', List.any_eq_true]
    exact ⟨f, hf, beq_self_eq_true f.name⟩
  unfold unknownField?
  induction es with
  | nil => simp [Entries.insertSorted, hknown]
  | cons e es ih =>
    obtain ⟨n, u⟩ := e
    rw [Entries.lookup_entry] at h
    rw [Entries.insertSorted]
    split
    · next heq => rw [if_pos heq] at h; cases h
    · next hne =>
      rw [if_neg hne] at h
      split
      · rw [List.map_cons, List.find?_cons_of_neg (by rw [hknown]; exact Bool.false_ne_true)]
      · rw [List.map_cons, List.map_cons, List.find?_cons, List.find?_cons, ih h]

/-! ## Defaults -/

/-- **One value writes a default that another leaves out**: an object for a field that has
no other definition, at any depth in objects and lists. `d` is the default, `c` what it is
coerced to. -/
inductive WritesDefault (schema : Schema) (d c : Value) : TypeRef → Value → Value → Prop where
  | here {nullable : Bool} {name : String} {fields : List InputValueDefinition}
      {f : InputValueDefinition} {es : List (String × Value)} :
    schema.custom? name = some (.inputObject fields) → f ∈ fields →
    (∀ g ∈ fields, g.name = f.name → g = f) → es.lookup f.name = none →
    f.default = some d → coerceValue schema d f.type = .ok c →
    WritesDefault schema d c (.named nullable name) (.object es)
      (.object (Entries.insertSorted f.name d es))
  | field {nullable : Bool} {name : String} {fields : List InputValueDefinition}
      {f : InputValueDefinition} {es : List (String × Value)} {v w : Value} :
    schema.custom? name = some (.inputObject fields) → f ∈ fields →
    (∀ g ∈ fields, g.name = f.name → g = f) → es.lookup f.name = some v →
    WritesDefault schema d c f.type v w →
    WritesDefault schema d c (.named nullable name) (.object es)
      (.object (Entries.set f.name w es))
  | item {nullable : Bool} {inner : TypeRef} {v w : Value} (before after : List Value) :
    WritesDefault schema d c inner v w →
    WritesDefault schema d c (.list nullable inner) (.list (before ++ v :: after))
      (.list (before ++ w :: after))
  /-- A value that stands for a list of itself. -/
  | single {nullable : Bool} {inner : TypeRef} {v w : Value} :
    v.IsSingle → WritesDefault schema d c inner v w →
    WritesDefault schema d c (.list nullable inner) v w

variable {d c v w : Value} {t : TypeRef}

theorem WritesDefault.isSingle (h : WritesDefault schema d c t v w) (hv : v.IsSingle) :
    w.IsSingle := by
  induction h with
  | here | field => trivial
  | item => exact hv.elim
  | single _ _ ih => exact ih hv

/-- **A value that leaves a default out is taken like one that writes it**, and becomes the
same exactly when the default is its own coercion. -/
theorem omitted_default (h : WritesDefault schema d c t v w) :
    Except.SameIff (d = c) (coerceValue schema v t) (coerceValue schema w t) := by
  induction h with
  | @here _ name _ f es hbody hf honly hnone hdefault hc =>
    rw [coerceValue_object hbody, coerceValue_object hbody]
    have hleft : fieldSetting name (entryCoercions schema es) f =
        (Except.ok d).map fun r => some (f.name, r) := fieldSetting_default hnone hdefault
    have hlookup : (Entries.insertSorted f.name d es).lookup f.name = some d := by
      rw [Entries.lookup_insertSorted, if_pos rfl]
    have hwritten : fieldSetting name (entryCoercions schema (Entries.insertSorted f.name d es)) f =
        (Except.ok c).map fun r => some (f.name, r) := by
      rw [fieldSetting_given hlookup, hc]
      rfl
    refine coerceObject_sameIff hf honly (unknownField?_insertSorted hf hnone d) ?_ hleft hwritten
      (.ok Iff.rfl)
    intro n hn
    rw [Entries.lookup_insertSorted, if_neg hn]
  | @field _ name fields f es v w hbody hf honly hv _ ih =>
    rw [coerceValue_object hbody, coerceValue_object hbody]
    have hw : (Entries.set f.name w es).lookup f.name = some w := by
      rw [Entries.lookup_set, if_pos rfl]
    have hnames : unknownField? fields (Entries.set f.name w es) = unknownField? fields es := by
      rw [unknownField?, unknownField?, Entries.map_fst_set hv]
    -- the same field is at fault, whatever the fault
    refine coerceObject_sameIff hf honly hnames ?_ (fieldSetting_given hv) (fieldSetting_given hw)
      (ih.mapError _)
    intro n hn
    rw [Entries.lookup_set, if_neg hn]
  | item before after _ ih =>
    rw [coerceValue_list, coerceValue_list]
    exact (ih.mapM_append before after).map fun _ _ h => by cases h; rfl
  | single hv h ih =>
    rw [coerceValue_single hv, coerceValue_single (h.isSingle hv)]
    exact ih.map fun _ _ h => by cases h; rfl

namespace Sample

/-- A field whose default is one item for a list. -/
def tags : InputValueDefinition where
  description := none
  name := "tags"
  type := .list true (.named true "String")
  default := some (.string "x")

/-- A schema with an input type, `input Filter { tags: [String] = "x" }`. -/
def filterSchema : Schema where
  types := [typeDefinition "Query" (.object [] [fieldDefinition "node" "String"]),
    typeDefinition "Filter" (.inputObject [tags])]
  query := "Query"
  mutation := none
  subscription := none

theorem writesDefault_filter :
    WritesDefault filterSchema (.string "x") (.list [.string "x"]) (.named true "Filter")
      (.object []) (.object [("tags", .string "x")]) := by
  have honly : ∀ g ∈ [tags], g.name = tags.name → g = tags := fun g hg _ =>
    List.mem_singleton.1 hg
  exact .here rfl List.mem_cons_self honly rfl rfl rfl

end Sample

/-- Two filters that stand in a list, one of them without its tags. -/
theorem sample_omitted_default :
    WritesDefault Sample.filterSchema (.string "x") (.list [.string "x"])
        (.list true (.named true "Filter")) (.list [.null, .object []])
        (.list [.null, .object [("tags", .string "x")]]) ∧
      Except.SameIff (Value.string "x" = .list [.string "x"])
        (coerceValue Sample.filterSchema (.list [.null, .object []])
          (.list true (.named true "Filter")))
        (coerceValue Sample.filterSchema (.list [.null, .object [("tags", .string "x")]])
          (.list true (.named true "Filter"))) := by
  have h : WritesDefault Sample.filterSchema (.string "x") (.list [.string "x"])
      (.list true (.named true "Filter")) (.list [.null, .object []])
      (.list [.null, .object [("tags", .string "x")]]) :=
    .item [.null] [] Sample.writesDefault_filter
  exact ⟨h, omitted_default h⟩

/-- **A default need not be taken like a value**: without its tags a filter has the default
as it is written, not the list that it stands for. -/
theorem sample_default_verbatim :
    WritesDefault Sample.filterSchema (.string "x") (.list [.string "x"]) (.named true "Filter")
        (.object []) (.object [("tags", .string "x")]) ∧
      coerceValue Sample.filterSchema (.object []) (.named true "Filter") ≠
        coerceValue Sample.filterSchema (.object [("tags", .string "x")]) (.named true "Filter") := by
  have hleft : coerceValue Sample.filterSchema (.object []) (.named true "Filter") =
      .ok (.object [("tags", .string "x")]) := rfl
  have hwritten : coerceValue Sample.filterSchema (.object [("tags", .string "x")])
      (.named true "Filter") = .ok (.object [("tags", .list [.string "x"])]) := rfl
  refine ⟨Sample.writesDefault_filter, ?_⟩
  rw [hleft, hwritten]
  nofun

end SelectionModel
