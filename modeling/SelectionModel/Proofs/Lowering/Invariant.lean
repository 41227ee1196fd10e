import SelectionModel.Proofs.Lowering.Scopes
import SelectionModel.Proofs.Merging.Depth

/-!
# Invariants of lowered fields

A property of fields holds at every depth of a lowered tree if merging keeps it,
derived keys keep it, and a field has it whose selections were lowered to fields
that have it. What a field is lowered from may be used for this: some selections on a
type with a property that is handed on.

* `ScopedInvariant.forall_subfields`: such a property holds of everything below a
  place.
* `ScopedInvariant.everywhere`: what holds of merged pairs and of lowered fields
  makes one.
* `FieldInvariant`: properties for which it does not matter what fields are lowered from.
-/

namespace SelectionModel

/-- What makes a property of fields hold everywhere below a place, whose selections on its type
have a property that is handed on. -/
structure ScopedInvariant (pass : Pass) (registry : Registry) (R : String → Selected → Prop)
    (Q : Field → Prop) : Prop where
  scopes : HandedOn pass.schema registry R
  merged : Keeps (mergeFields pass) Q
  derived : KeptByInheritance Q
  lowered : ∀ {type : String} {s : Selected} {name : String} {first : SelectedField}
    {rest : List SelectedField} {definition : FieldDefinition} {arguments : List Argument}
    {conditions : List Condition} {keys : OrderedSet SelectionKey} {below : List Field}
    {fragments : List Fragment}, R type s → s.included name = first :: rest →
    pass.schema.field? type first.head.name = some definition →
    coerceArguments pass.schema definition (s.location first.head.position) first.head.arguments =
      .ok arguments →
    LowersPlace pass registry (Place.below keys name definition)
      (s.below ((first :: rest).flatMap SelectedField.selections)) below fragments →
    (∀ c ∈ subfieldsOf below fragments, Q c) →
    Q (first.head.lowered definition (s.location first.head.position) arguments conditions
      (Place.below keys name definition).keys below fragments)

namespace ScopedInvariant

variable {pass : Pass} {registry : Registry} {R : String → Selected → Prop} {Q : Field → Prop}

/-- The fields of an entered fragment are those around it and its own ones. -/
theorem forall_entered (h : ScopedInvariant pass registry R Q) {around : Enclosing}
    {typeCondition : String} {own : List Field} (ha : ∀ f ∈ around.fields, Q f)
    (ho : ∀ f ∈ own, Q f) :
    ∀ f ∈ mergeFields pass
      (inheritFields around.fields (rebasedKeys around.keys typeCondition) ++ own), Q f := by
  refine h.merged _ fun f hf => ?_
  rcases List.mem_append.1 hf with hf | hf
  · exact forall_fields_inherit (h.derived _) ha f hf
  · exact ho f hf

mutual

/-- **The property holds of everything below a place.** -/
theorem forall_subfields (h : ScopedInvariant pass registry R Q) {place : Place} {s : Selected}
    {fields : List Field} {fragments : List Fragment} :
    LowersPlace pass registry place s fields fragments → R place.type s →
      ∀ c ∈ subfieldsOf fields fragments, Q c
  | .intro hf hg, hs => by
    have hfields := forall_fields h hf hs fun _ hm => hm
    have hinterfaces := forall_interfaces h hg hs (fun _ hm => hm) hfields
    intro c hc
    rcases mem_subfieldsOf.1 hc with hc | ⟨g, hg', hc⟩
    · exact hfields c hc
    · exact forall_fields_assemble (place.site pass fields) h.merged hfields
        (forall_fields_mergeInterfaces h.merged hinterfaces) g hg' c hc

theorem forall_fields (h : ScopedInvariant pass registry R Q) {type : String}
    {keys : OrderedSet SelectionKey} {s : Selected} {gs : List (Group String SelectedField)}
    {fields : List Field} : LowersFields pass registry type keys s gs fields → R type s →
      (∀ g ∈ gs, g ∈ s.groups) → ∀ f ∈ fields, Q f
  | .nil, _, _ => by simp
  | .excluded _ hr, hs, hg => forall_fields h hr hs fun g hm => hg g (List.mem_cons_of_mem _ hm)
  | .field hi hd ha hb hr, hs, hg => by
    have hincluded := (eq_included (hg _ List.mem_cons_self) hi).symm
    have hbelow := forall_subfields h hb (h.scopes.below hs hincluded hd)
    intro f hf
    rcases List.mem_cons.1 hf with rfl | hf
    · exact h.lowered hs hincluded hd ha hb hbelow
    · exact forall_fields h hr hs (fun g hm => hg g (List.mem_cons_of_mem _ hm)) f hf

theorem forall_interfaces (h : ScopedInvariant pass registry R Q) {around : Enclosing}
    {s : Selected} {fs : List SelectedFragment} {is : List Interface} :
    LowersFragments pass registry around s fs is → R around.type s → (∀ f ∈ fs, f ∈ s.fragments) →
      (∀ f ∈ around.fields, Q f) → ∀ i ∈ is, ∀ f ∈ i.fields, Q f
  | .nil, _, _, _ => by simp
  | .excluded _ hr, hs, hm, ha =>
    forall_interfaces h hr hs (fun f hf => hm f (List.mem_cons_of_mem _ hf)) ha
  | .entered hi he _ ho hn hr, hs, hm, ha => by
    have hinside := h.scopes.inside hs (hm _ List.mem_cons_self) (ruledOut_of_under hi) he
    have hown := forall_fields h ho hinside fun _ hm => hm
    -- the fragment's own interface encloses those in it, so its fields come first
    intro i hmem
    rcases List.mem_append.1 hmem with hmem | hmem
    · rcases List.mem_cons.1 hmem with rfl | hmem
      · exact h.forall_entered ha hown
      · exact forall_interfaces h hn hinside (fun _ hm => hm) (h.forall_entered ha hown) i hmem
    · exact forall_interfaces h hr hs (fun f hf => hm f (List.mem_cons_of_mem _ hf)) ha i hmem

end

/-- **What merging pairs keeps and lowered fields have** is an invariant at every
depth, if inheritance keeps it. -/
theorem everywhere {P : Field → Prop} (hR : HandedOn pass.schema registry R)
    (hk : KeptByInheritance P)
    (hm : ∀ a b, P a → P b → P (mergeFieldPair pass (mergeFields pass) a b))
    (hl : ∀ {type : String} {s : Selected} {name : String} {first : SelectedField}
      {rest : List SelectedField} {definition : FieldDefinition} {arguments : List Argument}
      {conditions : List Condition} {keys : OrderedSet SelectionKey} {below : List Field}
      {fragments : List Fragment}, R type s → s.included name = first :: rest →
      pass.schema.field? type first.head.name = some definition →
      coerceArguments pass.schema definition (s.location first.head.position)
        first.head.arguments = .ok arguments →
      LowersPlace pass registry (Place.below keys name definition)
        (s.below ((first :: rest).flatMap SelectedField.selections)) below fragments →
      P (first.head.lowered definition (s.location first.head.position) arguments conditions
        (Place.below keys name definition).keys below fragments)) :
    ScopedInvariant pass registry R (Field.Everywhere P) where
  scopes := hR
  merged := keeps_everywhere (fun _ _ _ _ => hk _) hm
  derived := hk.everywhere
  lowered hs hi hd ha hb hbelow := Field.everywhere_iff.2 ⟨hl hs hi hd ha hb, hbelow⟩

end ScopedInvariant

/-! ## Wherever fields are lowered from -/

/-- What makes a property of fields hold everywhere below a place. -/
structure FieldInvariant (pass : Pass) (registry : Registry) (Q : Field → Prop) : Prop where
  merged : Keeps (mergeFields pass) Q
  derived : KeptByInheritance Q
  lowered : ∀ {head : FieldHead} {definition : FieldDefinition} {location : SourceLocation}
    {arguments : List Argument} {conditions : List Condition} {keys : OrderedSet SelectionKey}
    {name : String} {s : Selected} {fields : List Field} {fragments : List Fragment},
    LowersPlace pass registry (Place.below keys name definition) s fields fragments →
    (∀ c ∈ subfieldsOf fields fragments, Q c) →
    Q (head.lowered definition location arguments conditions (Place.below keys name definition).keys
      fields fragments)

namespace FieldInvariant

variable {pass : Pass} {registry : Registry} {Q : Field → Prop}

/-- It does not matter what the fields are lowered from. -/
theorem anywhere (h : FieldInvariant pass registry Q) :
    ScopedInvariant pass registry (fun _ _ => True) Q where
  scopes := ⟨fun _ _ _ => trivial, fun _ _ _ _ => trivial⟩
  merged := h.merged
  derived := h.derived
  lowered _ _ _ _ hb hbelow := h.lowered hb hbelow

/-- **The property holds of everything below a place.** -/
theorem forall_subfields (h : FieldInvariant pass registry Q) {place : Place} {s : Selected}
    {fields : List Field} {fragments : List Fragment}
    (hl : LowersPlace pass registry place s fields fragments) :
    ∀ c ∈ subfieldsOf fields fragments, Q c :=
  h.anywhere.forall_subfields hl trivial

theorem forall_fields (h : FieldInvariant pass registry Q) {type : String}
    {keys : OrderedSet SelectionKey} {s : Selected} {fields : List Field}
    (hl : LowersFields pass registry type keys s s.groups fields) : ∀ f ∈ fields, Q f :=
  h.anywhere.forall_fields hl trivial fun _ hm => hm

/-- **What merging pairs keeps and lowered fields have** is an invariant at every
depth, if inheritance keeps it. -/
theorem everywhere {P : Field → Prop} (hk : KeptByInheritance P)
    (hm : ∀ a b, P a → P b → P (mergeFieldPair pass (mergeFields pass) a b))
    (hl : ∀ {head : FieldHead} {definition : FieldDefinition} {location : SourceLocation}
      {arguments : List Argument} {conditions : List Condition} {keys : OrderedSet SelectionKey}
      {name : String} {s : Selected} {fields : List Field} {fragments : List Fragment},
      LowersPlace pass registry (Place.below keys name definition) s fields fragments →
      P (head.lowered definition location arguments conditions
        (Place.below keys name definition).keys fields fragments)) :
    FieldInvariant pass registry (Field.Everywhere P) where
  merged := keeps_everywhere (fun _ _ _ _ => hk _) hm
  derived := hk.everywhere
  lowered h hb := Field.everywhere_iff.2 ⟨hl h, hb⟩

end FieldInvariant

end SelectionModel
