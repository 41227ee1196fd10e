import SelectionModel.Proofs.Schema.Drafts

/-!
# Loading schema documents

A draft remembers of its documents what their definitions say, one behind the other: the
types, the extensions and the roots, each kind apart. Which document a definition stands in
only shows in its location.

* `Written`: the definitions of documents, in the order in which they are loaded.
* `SchemaDraft.addAll_eq_ok`: additions succeed when no name is defined twice, and then
  the draft holds what was defined.
* `Written.adds`: **loading documents adds their definitions one after the other.**
* `loadAll_eq_error`: **loading fails at the first definition whose name is known.**
-/

namespace SelectionModel

/-- A schema document: its path, if it has one, and its text. -/
structure SchemaSource where
  path : Option String
  text : List Char

/-- A definition and the label of the document that it stands in. -/
structure PlacedDefinition where
  label : String
  definition : SchemaDefinition

namespace PlacedDefinition

/-- The type that is defined, and where. -/
def type? (p : PlacedDefinition) : Option LocatedType :=
  match p.definition with
  | .type t => some ⟨.schema ⟨some p.label, t.position⟩, t⟩
  | _ => none

/-- The extension that is given, and where. -/
def extension? (p : PlacedDefinition) : Option LocatedExtension :=
  match p.definition with
  | .extension e => some ⟨.schema ⟨some p.label, e.position⟩, e⟩
  | _ => none

/-- The root types that a schema definition names. -/
def roots? (p : PlacedDefinition) : Option RootTypes :=
  match p.definition with
  | .roots r => some r
  | _ => none

end PlacedDefinition

/-- The name of the type that is defined. -/
def LocatedType.name (t : LocatedType) : String := t.definition.name

/-- The types that are defined, in load order. -/
def typesIn (ds : List PlacedDefinition) : List LocatedType := ds.filterMap (·.type?)

/-- The extensions that are given, in load order. -/
def extensionsIn (ds : List PlacedDefinition) : List LocatedExtension := ds.filterMap (·.extension?)

/-- The schema definitions, in load order. -/
def rootsIn (ds : List PlacedDefinition) : List RootTypes := ds.filterMap (·.roots?)

/-- The definitions of a document under its label. -/
def placed (label : String) (definitions : List SchemaDefinition) : List PlacedDefinition :=
  definitions.map fun definition => ⟨label, definition⟩

/-- **What documents say**, of which all can be read: their definitions in load order. A
document goes by its path, or by its number among those without one. -/
inductive Written : Nat → List SchemaSource → List PlacedDefinition → Prop where
  | nil {n : Nat} : Written n [] []
  | named {n : Nat} {path : String} {text : List Char} {definitions : List SchemaDefinition}
      {sources : List SchemaSource} {ds : List PlacedDefinition} :
    parseSchema text = .ok definitions → Written n sources ds →
    Written n (⟨some path, text⟩ :: sources) (placed path definitions ++ ds)
  | unnamed {n : Nat} {text : List Char} {definitions : List SchemaDefinition}
      {sources : List SchemaSource} {ds : List PlacedDefinition} :
    parseSchema text = .ok definitions → Written (n + 1) sources ds →
    Written n (⟨none, text⟩ :: sources)
      (placed (SchemaDraft.unnamedLabel n) definitions ++ ds)

/-- Loads documents one after the other. -/
def loadAll (sources : List SchemaSource) : Except SchemaError SchemaDraft :=
  sources.foldlM (fun d s => d.load s.path s.text) .empty

/-! ## Additions to a draft -/

namespace SchemaDraft

variable {d d' : SchemaDraft} {p : PlacedDefinition} {ds : List PlacedDefinition}

/-- Adds a definition under the label of its document. -/
def add (d : SchemaDraft) (p : PlacedDefinition) : Except SchemaError SchemaDraft :=
  d.addDefinition p.label p.definition

/-- **What a draft holds behind some definitions.** -/
def behind (d : SchemaDraft) (ds : List PlacedDefinition) : SchemaDraft :=
  { d with
    roots := (rootsIn ds).foldl overrideRoots d.roots
    types := d.types ++ typesIn ds
    extensions := d.extensions ++ extensionsIn ds }

@[simp] theorem behind_nil : d.behind [] = d := by
  simp [behind, rootsIn, typesIn, extensionsIn]

theorem behind_cons : d.behind (p :: ds) = (d.behind [p]).behind ds := by
  obtain ⟨label, definition⟩ := p
  cases definition <;>
    simp [behind, rootsIn, typesIn, extensionsIn, PlacedDefinition.roots?,
      PlacedDefinition.type?, PlacedDefinition.extension?]

theorem names_behind : (d.behind ds).names = d.names ++ (typesIn ds).map LocatedType.name := by
  simp only [names, behind, typeNames, List.map_append, List.map_map]
  rfl

/-- **One addition**: it succeeds when the draft has no type of the name, and adds the
definition. -/
theorem add_eq_ok (hn : d.names.Nodup) :
    d.add p = .ok d' ↔ (d.behind [p]).names.Nodup ∧ d' = d.behind [p] := by
  obtain ⟨label, definition⟩ := p
  rw [names_behind]
  cases definition with
  | type t =>
    have hnames : (d.names ++ (typesIn [⟨label, .type t⟩]).map LocatedType.name).Nodup ↔
        t.name ∉ d.names := by
      rw [List.nodup_append]
      constructor
      · rintro ⟨-, -, hne⟩ hm
        exact hne _ hm t.name List.mem_cons_self rfl
      · intro hnew
        refine ⟨hn, List.nodup_singleton _, fun a ha b hb he => hnew ?_⟩
        have ht : a = t.name := he.trans (List.mem_singleton.1 hb)
        exact ht ▸ ha
    have hfree : (d.types.find? fun known => known.definition.name == t.name) = none ↔
        t.name ∉ d.names := by
      simp [names, typeNames, List.find?_eq_none]
    rw [hnames, add, addDefinition]
    cases hfind : d.types.find? fun known => known.definition.name == t.name with
    | none =>
      have hnew := hfree.1 hfind
      simp [hnew, behind, rootsIn, typesIn, extensionsIn, PlacedDefinition.roots?,
        PlacedDefinition.type?, PlacedDefinition.extension?, eq_comm]
    | some known =>
      have hold : ¬t.name ∉ d.names := fun hnew => by
        rw [hfree.2 hnew] at hfind
        cases hfind
      simp [hold]
  | _ =>
    simp only [add, addDefinition, behind, rootsIn, typesIn, extensionsIn,
      PlacedDefinition.roots?, PlacedDefinition.type?, PlacedDefinition.extension?,
      List.filterMap_cons_none, List.filterMap_nil, List.map_nil, List.foldl_nil,
      List.append_nil, hn, true_and, Except.ok.injEq]
    exact eq_comm

/-- **One refusal**: a type is refused if one of its name is known. -/
theorem add_eq_error {e : SchemaError} (hn : d.names.Nodup) :
    d.add p = .error e ↔ ∃ t, p.definition = .type t ∧ ∃ known ∈ d.types,
      known.name = t.name ∧
        e = .duplicateType t.name known.location (.schema ⟨some p.label, t.position⟩) := by
  obtain ⟨label, definition⟩ := p
  cases definition with
  | type t =>
    rw [add, addDefinition]
    cases hfind : d.types.find? fun known => known.definition.name == t.name with
    | none =>
      have hnone : ∀ known ∈ d.types, known.name ≠ t.name := by
        simpa [List.find?_eq_none, LocatedType.name] using hfind
      constructor
      · intro h
        cases h
      · rintro ⟨u, hu, known, hk, he, -⟩
        obtain rfl := SchemaDefinition.type.inj hu
        exact absurd he (hnone known hk)
    | some known =>
      have hmem : known ∈ d.types := List.mem_of_find?_eq_some hfind
      have hname : known.definition.name = t.name := by simpa using List.find?_some hfind
      constructor
      · intro h
        exact ⟨t, rfl, known, hmem, hname, (Except.error.inj h).symm⟩
      · rintro ⟨u, hu, other, ho, he, rfl⟩
        obtain rfl := SchemaDefinition.type.inj hu
        -- names are distinct, so it is the type that was found
        have hinj : (d.types.map LocatedType.name).Nodup := by
          rwa [names, typeNames, List.map_map] at hn
        have hsame : known = other := List.inj_on_of_nodup_map hinj hmem ho (hname.trans he.symm)
        subst hsame
        rfl
  | _ =>
    constructor
    · intro h
      cases h
    · rintro ⟨t, ht, -⟩
      cases ht

/-- **Additions succeed** when no name is defined twice, and add all of the definitions. -/
theorem addAll_eq_ok (hn : d.names.Nodup) :
    ds.foldlM add d = .ok d' ↔ (d.behind ds).names.Nodup ∧ d' = d.behind ds := by
  induction ds generalizing d with
  | nil => simp [hn, pure, Except.pure, eq_comm]
  | cons p ds ih =>
    rw [Except.foldlM_cons_eq_ok, behind_cons]
    constructor
    · rintro ⟨c, hp, hds⟩
      obtain ⟨hc, rfl⟩ := (add_eq_ok hn).1 hp
      exact (ih hc).1 hds
    · rintro ⟨hall, rfl⟩
      -- a part of distinct names is distinct
      have hp : (d.behind [p]).names.Nodup := by
        rw [names_behind] at hall
        exact hall.of_append_left
      exact ⟨_, (add_eq_ok hn).2 ⟨hp, rfl⟩, (ih hp).2 ⟨hall, rfl⟩⟩

/-- A draft with another count of documents. -/
def counting (n : Nat) (d : SchemaDraft) : SchemaDraft := { d with unnamed := n }

/-- How many documents have no path makes no difference to what is added. -/
theorem addAll_counting (n : Nat) :
    ds.foldlM add (d.counting n) = (ds.foldlM add d).map (counting n) := by
  induction ds generalizing d with
  | nil => rfl
  | cons p ds ih =>
    have hstep : (d.counting n).add p = (d.add p).map (counting n) := by
      obtain ⟨label, definition⟩ := p
      cases definition with
      | type t =>
        simp only [add, addDefinition, counting]
        split <;> rfl
      | _ => rfl
    rw [List.foldlM_cons, List.foldlM_cons, hstep]
    cases d.add p with
    | error e => rfl
    | ok c => exact ih

end SchemaDraft

/-! ## Loading -/

section Loading

variable {sources : List SchemaSource} {ds : List PlacedDefinition} {n : Nat}

theorem foldlM_placed (label : String) (definitions : List SchemaDefinition) (d : SchemaDraft) :
    definitions.foldlM (SchemaDraft.addDefinition label) d =
      (placed label definitions).foldlM SchemaDraft.add d := by
  rw [placed, List.foldlM_map]
  rfl

/-- Loading documents adds some definitions, to every draft that has counted `n` others. -/
def Adds (n : Nat) (sources : List SchemaSource) (ds : List PlacedDefinition) : Prop :=
  ∀ d : SchemaDraft, d.unnamed = n → ∃ m, sources.foldlM (fun d s => d.load s.path s.text) d =
    (ds.foldlM SchemaDraft.add d).map (SchemaDraft.counting m)

/-- A document in front of others. -/
theorem Adds.behind (h : Adds n sources ds) (front : List PlacedDefinition) (d : SchemaDraft) :
    ∃ m, (front.foldlM SchemaDraft.add (d.counting n) >>=
        fun d => sources.foldlM (fun d s => d.load s.path s.text) d) =
      ((front ++ ds).foldlM SchemaDraft.add d).map (SchemaDraft.counting m) := by
  rw [SchemaDraft.addAll_counting, List.foldlM_append]
  cases front.foldlM SchemaDraft.add d with
  | error e => exact ⟨0, rfl⟩
  | ok c =>
    obtain ⟨m, hm⟩ := h (c.counting n) rfl
    refine ⟨m, hm.trans ?_⟩
    rw [SchemaDraft.addAll_counting]
    change _ = (ds.foldlM SchemaDraft.add c).map _
    cases ds.foldlM SchemaDraft.add c <;> rfl

/-- **Loading documents adds their definitions one after the other.** -/
theorem Written.adds (h : Written n sources ds) : Adds n sources ds := by
  induction h with
  | nil => exact fun d _ => ⟨d.unnamed, rfl⟩
  | @named n path text definitions sources ds hp _ ih =>
    intro d hd
    obtain ⟨m, hm⟩ := ih.behind (placed path definitions) d
    refine ⟨m, ?_⟩
    rw [← hm, List.foldlM_cons, SchemaDraft.load, hp, ← foldlM_placed, ← hd]
    rfl
  | @unnamed n text definitions sources ds hp _ ih =>
    intro d hd
    obtain ⟨m, hm⟩ := ih.behind (placed (SchemaDraft.unnamedLabel n) definitions) d
    refine ⟨m, ?_⟩
    rw [← hm, List.foldlM_cons, SchemaDraft.load, hp, ← foldlM_placed, ← hd]
    rfl

/-- A definition leaves the count of documents alone. -/
theorem SchemaDraft.unnamed_addDefinition {label : String} {definition : SchemaDefinition}
    {d d' : SchemaDraft} (h : d.addDefinition label definition = .ok d') :
    d'.unnamed = d.unnamed := by
  cases definition with
  | type t =>
    rw [addDefinition] at h
    split at h
    · cases h
    · obtain rfl := Except.ok.inj h
      rfl
  | _ =>
    obtain rfl := Except.ok.inj h
    rfl

/-- Documents that are loaded can be read. -/
theorem exists_written_of_load {d d' : SchemaDraft}
    (h : sources.foldlM (fun d s => d.load s.path s.text) d = .ok d') :
    ∃ ds, Written d.unnamed sources ds := by
  induction sources generalizing d with
  | nil => exact ⟨[], .nil⟩
  | cons s sources ih =>
    obtain ⟨c, hs, hrest⟩ := Except.foldlM_cons_eq_ok.1 h
    obtain ⟨ds, hds⟩ := ih hrest
    obtain ⟨path, text⟩ := s
    have count : ∀ {label : String} {definitions : List SchemaDefinition} {b : SchemaDraft},
        definitions.foldlM (SchemaDraft.addDefinition label) b = .ok c → c.unnamed = b.unnamed := by
      intro label definitions b hc
      exact Except.foldlM_keeps (p := fun c : SchemaDraft => c.unnamed = b.unnamed)
        (fun _ _ _ hb h => (SchemaDraft.unnamed_addDefinition h).trans hb) rfl hc
    cases path with
    | none =>
      simp only [SchemaDraft.load] at hs
      split at hs
      · cases hs
      next definitions hp =>
        rw [count hs] at hds
        exact ⟨_, .unnamed hp hds⟩
    | some path =>
      simp only [SchemaDraft.load] at hs
      split at hs
      · cases hs
      next definitions hp =>
        rw [count hs] at hds
        exact ⟨_, .named hp hds⟩

theorem names_empty : SchemaDraft.empty.names = [] := rfl

/-- **What is loaded**: no name is defined twice, and the draft holds what the documents say. -/
theorem loadAll_eq_ok (h : Written 0 sources ds) {d : SchemaDraft} (hd : loadAll sources = .ok d) :
    ((typesIn ds).map LocatedType.name).Nodup ∧ d.types = typesIn ds ∧
      d.extensions = extensionsIn ds ∧
      d.roots = (rootsIn ds).foldl SchemaDraft.overrideRoots {} := by
  obtain ⟨m, hl⟩ := h.adds .empty rfl
  rw [← loadAll, hd] at hl
  obtain ⟨c, hc, rfl⟩ := Except.map_eq_ok.1 hl.symm
  have hnone : SchemaDraft.empty.names.Nodup := List.nodup_nil
  obtain ⟨hn, rfl⟩ := (SchemaDraft.addAll_eq_ok hnone).1 hc
  rw [SchemaDraft.names_behind, names_empty, List.nil_append] at hn
  exact ⟨hn, List.nil_append _, List.nil_append _, rfl⟩

/-- **The error at the first definition whose name is known**: names are distinct up to it,
and one of them is its own. -/
def FirstRepetition (ds : List PlacedDefinition) (e : SchemaError) : Prop :=
  ∃ before label t after, ds = before ++ ⟨label, .type t⟩ :: after ∧
    ((typesIn before).map LocatedType.name).Nodup ∧ ∃ first ∈ typesIn before,
      first.name = t.name ∧
        e = .duplicateType t.name first.location (.schema ⟨some label, t.position⟩)

/-- **Loading fails at the first definition whose name is known**, and reports where it was
defined before. -/
theorem loadAll_eq_error (h : Written 0 sources ds) {e : SchemaError} :
    loadAll sources = .error e ↔ FirstRepetition ds e := by
  obtain ⟨m, hl⟩ := h.adds .empty rfl
  have hfold : loadAll sources = .error e ↔ ds.foldlM SchemaDraft.add .empty = .error e := by
    rw [loadAll, hl]
    cases ds.foldlM SchemaDraft.add .empty <;> simp [Except.map]
  have hnone : SchemaDraft.empty.names.Nodup := List.nodup_nil
  rw [hfold, Except.foldlM_eq_error]
  constructor
  · rintro ⟨before, ⟨label, definition⟩, after, c, rfl, hbefore, hp⟩
    obtain ⟨hn, rfl⟩ := (SchemaDraft.addAll_eq_ok hnone).1 hbefore
    obtain ⟨t, ht, first, hfirst, hname, he⟩ := (SchemaDraft.add_eq_error hn).1 hp
    obtain rfl : definition = .type t := ht
    rw [SchemaDraft.names_behind, names_empty, List.nil_append] at hn
    exact ⟨before, label, t, after, rfl, hn, first, hfirst, hname, he⟩
  · rintro ⟨before, label, t, after, rfl, hn, first, hfirst, hname, he⟩
    have hnames : (SchemaDraft.empty.behind before).names.Nodup := by
      rwa [SchemaDraft.names_behind, names_empty, List.nil_append]
    exact ⟨before, _, after, _, rfl, (SchemaDraft.addAll_eq_ok hnone).2 ⟨hnames, rfl⟩,
      (SchemaDraft.add_eq_error hnames).2 ⟨t, rfl, first, hfirst, hname, he⟩⟩

end Loading

end SelectionModel
