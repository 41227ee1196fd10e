import SelectionModel.Document.Basic

/-!
# Fragment registries

A registry holds fragments by name, in the order in which they were added, each
with its text and its file: what a spread needs wherever it stands.

* `get?_add`: adding a fragment changes the look-up of its own name only.
-/

namespace SelectionModel

/-- A fragment definition with its text and the file it stands in. -/
structure RegisteredFragment where
  definition : FragmentDefinition
  file : Option String
  sourceText : String
  deriving Inhabited

namespace RegisteredFragment

def name (f : RegisteredFragment) : String := f.definition.name

def typeCondition (f : RegisteredFragment) : String := f.definition.typeCondition

def selections (f : RegisteredFragment) : List Selection := f.definition.selections

def location (f : RegisteredFragment) : SourceLocation :=
  .executable ⟨f.file, f.definition.position⟩

end RegisteredFragment

/-- Why a fragment cannot be registered. -/
inductive RegistryError where
  | duplicate (fragment : String) (first second : SourceLocation)
  | sourceTextUnavailable (fragment : String) (location : SourceLocation)
  deriving DecidableEq, Repr

namespace RegistryError

def message : RegistryError → String
  | .duplicate fragment _ _ => "Duplicate fragment definition: '" ++ fragment ++ "'"
  | .sourceTextUnavailable fragment _ =>
    "Could not locate the source text of fragment '" ++ fragment ++ "'"

def locations : RegistryError → List SourceLocation
  | .duplicate _ first second => [first, second]
  | .sourceTextUnavailable _ location => [location]

end RegistryError

/-- Fragments by name, in the order of their registration. -/
structure Registry where
  fragments : List RegisteredFragment
  nodup : (fragments.map RegisteredFragment.name).Nodup

namespace Registry

def empty : Registry := ⟨[], List.Pairwise.nil⟩

instance : Inhabited Registry := ⟨empty⟩

/-- The fragment with a name. -/
def get? (r : Registry) (name : String) : Option RegisteredFragment :=
  r.fragments.find? fun f => f.name == name

theorem get?_eq_none {r : Registry} {name : String} :
    r.get? name = none ↔ name ∉ r.fragments.map RegisteredFragment.name := by
  simp only [get?, List.find?_eq_none, beq_iff_eq, List.mem_map, not_exists, not_and]

theorem name_of_get? {r : Registry} {name : String} {f : RegisteredFragment}
    (h : r.get? name = some f) : f.name = name := by
  simpa using List.find?_some h

theorem nodup_concat {r : Registry} {f : RegisteredFragment} (h : r.get? f.name = none) :
    ((r.fragments ++ [f]).map RegisteredFragment.name).Nodup := by
  rw [List.map_append]
  exact List.nodup_append.2 ⟨r.nodup, List.pairwise_singleton _ _, by
    intro x hx y hy
    obtain rfl := List.mem_singleton.1 hy
    exact fun e => get?_eq_none.1 h (e ▸ hx)⟩

/-- Adds a fragment at the end. Its name must be new. -/
def add (r : Registry) (f : RegisteredFragment) : Except RegistryError Registry :=
  match h : r.get? f.name with
  | some known => .error (.duplicate f.name known.location f.location)
  | none => .ok ⟨r.fragments ++ [f], nodup_concat h⟩

/-- Adding a fragment changes the look-up of its own name only. -/
theorem get?_add {r s : Registry} {f : RegisteredFragment} (h : r.add f = .ok s) (name : String) :
    s.get? name = (r.get? name).or (if f.name = name then some f else none) := by
  unfold add at h
  split at h
  · simp at h
  · injection h with h
    subst h
    simp [get?, List.find?_append, List.find?_cons]
    split <;> simp_all

/-- Adds fragments of a document one after the other, up to the first that
cannot be added. -/
def addFragments (d : Document) :
    List FragmentDefinition → Registry → Registry × Option RegistryError
  | [], r => (r, none)
  | f :: fs, r =>
    match d.definitionSource? f.position with
    | none => (r, some (.sourceTextUnavailable f.name (d.location f.position)))
    | some text =>
      match r.add ⟨f, d.file, text⟩ with
      | .ok r => addFragments d fs r
      | .error e => (r, some e)

/-- **Adds the fragments of a document.** After a failure those before the
failing one stay registered. -/
def addDocument (r : Registry) (d : Document) : Registry × Option RegistryError :=
  addFragments d d.fragments r

/-- The registry of the fragments of some documents. -/
def ofDocuments (ds : List Document) : Except RegistryError Registry :=
  ds.foldlM (fun r d =>
    match r.addDocument d with
    | (r, none) => .ok r
    | (_, some e) => .error e) empty

end Registry

end SelectionModel
