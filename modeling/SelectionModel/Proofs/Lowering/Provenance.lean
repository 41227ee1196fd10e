import SelectionModel.Proofs.Lowering.Invariant

/-!
# The selections that fields are lowered from

A lowered field has its names, its place and its arguments from one selection, and its type
and its description from the definition of that field on the type the selection is lowered
on. Merging leaves this as it is in the first of two fields, and more keys do not change it.

* `Field.facts`: what a field has from a selection and a definition.
* `Field.LoweredFrom`: a field has them from one selection.
* `LowersPlace.loweredFrom`: **all lowered fields have them from one selection each.**
-/

namespace SelectionModel

/-- What a field has from a selection and the definition of the field. -/
structure FieldFacts where
  aliasName : Option String
  name : String
  location : SourceLocation
  arguments : List Argument
  type : TypeRef
  description : Option String
  deprecation : Option String

def Field.facts (f : Field) : FieldFacts where
  aliasName := f.aliasName
  name := f.name
  location := f.location
  arguments := f.arguments
  type := f.type
  description := f.description
  deprecation := f.deprecation

/-- What a selection at a location and the definition of its field come to. -/
def FieldHead.facts (head : FieldHead) (d : FieldDefinition) (location : SourceLocation)
    (arguments : List Argument) : FieldFacts where
  aliasName := head.aliasName
  name := head.name
  location := location
  arguments := arguments
  type := d.type
  description := d.description
  deprecation := d.deprecation?

@[simp] theorem Field.facts_withDerivedKeys (derive : SelectionKey → List SelectionKey)
    (f : Field) : (f.withDerivedKeys derive).facts = f.facts := by
  cases f
  rw [withDerivedKeys]
  rfl

/-- Merging leaves what the first field has. -/
@[simp] theorem Field.facts_mergeFieldPair (pass : Pass) (merge : List Field → List Field)
    (a b : Field) : (mergeFieldPair pass merge a b).facts = a.facts := rfl

/-- **A field is lowered from a selection** of a file: it has its names, its place and its
coerced arguments, and the type and the description that its definition says, on the type on
which the selection is lowered. -/
inductive Field.LoweredFrom (schema : Schema) (registry : Registry) (type : String)
    (start : Selected) (f : Field) : Prop where
  | intro {t : String} {file : Option String} {head : FieldHead} {selections : List Selection}
      {d : FieldDefinition} {arguments : List Argument} :
    LoweredOn schema registry type start t file (.field head selections) →
    ruledOut head.directives = false → schema.field? t head.name = some d →
    coerceArguments schema d (.executable ⟨file, head.position⟩) head.arguments = .ok arguments →
    f.facts = head.facts d (.executable ⟨file, head.position⟩) arguments →
    LoweredFrom schema registry type start f

variable {pass : Pass} {schema : Schema} {registry : Registry} {type : String} {start : Selected}

/-- What a field is lowered from is said by what it has from there. -/
theorem Field.LoweredFrom.of_facts {f g : Field}
    (h : f.LoweredFrom schema registry type start) (he : g.facts = f.facts) :
    g.LoweredFrom schema registry type start := by
  obtain ⟨hx, hr, hd, ha, hfacts⟩ := h
  exact ⟨hx, hr, hd, ha, he.trans hfacts⟩

theorem keptByKeys_loweredFrom :
    KeptByKeys (Field.LoweredFrom schema registry type start) :=
  fun derive f h => h.of_facts (f.facts_withDerivedKeys derive)

/-- What lowers some selections together lowers each field from one of them. -/
theorem loweredFrom_invariant (pass : Pass) (registry : Registry) (type : String)
    (start : Selected) :
    ScopedInvariant pass registry (LoweredTogether pass.schema registry type start)
      (Field.Everywhere (Field.LoweredFrom pass.schema registry type start)) := by
  apply ScopedInvariant.everywhere handedOn_loweredTogether
  · exact keptByKeys_loweredFrom.inherited
  · intro a b ha _
    exact ha.of_facts (Field.facts_mergeFieldPair pass _ a b)
  · intro t s name first rest d arguments conditions keys below fragments hs hi hd ha _
    have hfirst : first ∈ s.included name := by
      rw [hi]
      exact List.mem_cons_self
    obtain ⟨hmem, hr⟩ := mem_included hfirst
    have hx := hs.loweredOn (Selected.mem_fields.1 hmem)
    exact .intro hx hr hd ha rfl

/-- **All lowered fields are lowered from selections**, at any depth. -/
theorem LowersPlace.loweredFrom {place : Place} {s : Selected} {fields : List Field}
    {fragments : List Fragment} (h : LowersPlace pass registry place s fields fragments) :
    ∀ c ∈ subfieldsOf fields fragments,
      c.Everywhere (Field.LoweredFrom pass.schema registry place.type s) :=
  (loweredFrom_invariant pass registry place.type s).forall_subfields h .start

end SelectionModel
