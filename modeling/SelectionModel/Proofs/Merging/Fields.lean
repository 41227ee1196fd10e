import SelectionModel.Proofs.Merging.Implementations
import SelectionModel.Proofs.Tree.Subfields

/-!
# Merged fields

Merging goes down one level at a time, so what it keeps is shown for one merged
pair, given a merging of the fields below that keeps it.

* `forall_subfields_mergeFieldPair`: what is below a merged pair has every
  property of what is below the two, if the merging below and derived keys keep it.
* `mem_names_mergeFieldsAt`, `nodup_names_mergeFields`: the response names stay,
  each once.
-/

namespace SelectionModel

/-- A merging of fields keeps a property that all fields have. -/
def Keeps (merge : List Field → List Field) (Q : Field → Prop) : Prop :=
  ∀ fs, (∀ f ∈ fs, Q f) → ∀ f ∈ merge fs, Q f

/-- Adding keys to fields keeps a property. -/
def KeptByKeys (Q : Field → Prop) : Prop :=
  ∀ (derive : SelectionKey → List SelectionKey) (f : Field), Q f → Q (f.withDerivedKeys derive)

/-- Inheriting fields of a selection with some keys through a fragment keeps a property. -/
def KeptThrough (keys : OrderedSet SelectionKey) (Q : Field → Prop) : Prop :=
  ∀ (typeCondition : String) (f : Field), Q f →
    Q (f.withDerivedKeys (rebaseKey (rebasedKeys keys typeCondition)))

/-- Inheriting fields through a fragment keeps a property. -/
def KeptByInheritance (Q : Field → Prop) : Prop :=
  ∀ (keys : OrderedSet SelectionKey) (typeCondition : String) (f : Field), Q f →
    Q (f.withDerivedKeys (rebaseKey (rebasedKeys keys typeCondition)))

theorem KeptByKeys.everywhere {P : Field → Prop} (h : KeptByKeys P) :
    KeptByKeys (Field.Everywhere P) :=
  fun derive _ hf => Field.everywhere_withDerivedKeys derive (h derive) hf

/-- Adding keys to all fields of a list keeps what holds everywhere in them. -/
theorem KeptByKeys.forall_map {P : Field → Prop} (h : KeptByKeys P)
    (derive : SelectionKey → List SelectionKey) {fs : List Field}
    (hfs : ∀ f ∈ fs, f.Everywhere P) :
    ∀ f ∈ fs.map (Field.withDerivedKeys derive), f.Everywhere P := by
  intro f hf
  obtain ⟨g, hg, rfl⟩ := List.mem_map.1 hf
  exact h.everywhere derive g (hfs g hg)

theorem KeptByKeys.inherited {P : Field → Prop} (h : KeptByKeys P) : KeptByInheritance P :=
  fun _ _ f hf => h _ f hf

theorem KeptThrough.everywhere {P : Field → Prop} {keys : OrderedSet SelectionKey}
    (h : KeptThrough keys P) : KeptThrough keys (Field.Everywhere P) :=
  fun typeCondition _ hf => Field.everywhere_withDerivedKeys _ (h typeCondition) hf

theorem KeptByInheritance.everywhere {P : Field → Prop} (h : KeptByInheritance P) :
    KeptByInheritance (Field.Everywhere P) :=
  fun keys => KeptThrough.everywhere (h keys)

variable {pass : Pass} {merge : List Field → List Field} {is : List Interface} {site : Site}

/-! ## Assembled fragments -/

@[simp] theorem interfacesIn_assemble : interfacesIn (assemble pass merge is site) = is := by
  rw [assemble, interfacesIn_append, interfacesIn_map_interface]
  cases pass.withImplementations <;> simp

theorem implementationsIn_assemble :
    implementationsIn (assemble pass merge is site) =
      if pass.withImplementations then implementations merge is site else [] := by
  rw [assemble, implementationsIn_append, implementationsIn_map_interface, List.nil_append]
  cases pass.withImplementations <;> simp

theorem mem_assemble {g : Fragment} (h : g ∈ assemble pass merge is site) :
    (∃ i ∈ is, g = .interface i) ∨ ∃ m ∈ implementations merge is site, g = .implementation m := by
  cases g with
  | interface i =>
    have hi := mem_interfacesIn.2 h
    rw [interfacesIn_assemble] at hi
    exact .inl ⟨i, hi, rfl⟩
  | implementation m =>
    have hm := mem_implementationsIn.2 h
    rw [implementationsIn_assemble] at hm
    split at hm
    · exact .inr ⟨m, hm, rfl⟩
    · simp at hm

variable {Q : Field → Prop}

/-- The fields of an implementation come from its site and from interfaces. -/
theorem forall_fields_implementation {m : Implementation} (hm : Keeps merge Q)
    (hs : ∀ f ∈ site.fields, Q f) (hi : ∀ i ∈ is, ∀ f ∈ i.fields, Q f)
    (h : m ∈ implementations merge is site) : ∀ f ∈ m.fields, Q f := by
  obtain ⟨type, ht⟩ := possibleTypes_ne_nil h
  obtain ⟨-, _, rfl⟩ := eq_implementationOf h ht
  refine hm _ fun f hf => ?_
  rcases List.mem_append.1 hf with hf | hf
  · exact hs f hf
  · obtain ⟨i, hi', hf⟩ := List.mem_flatMap.1 hf
    exact hi i (mem_satisfiedBy.1 hi').1 f hf

theorem forall_fields_assemble (site : Site) (hm : Keeps merge Q) (hs : ∀ f ∈ site.fields, Q f)
    (hi : ∀ i ∈ is, ∀ f ∈ i.fields, Q f) :
    ∀ g ∈ assemble pass merge is site, ∀ f ∈ g.fields, Q f := by
  intro g hg
  rcases mem_assemble hg with ⟨i, h, rfl⟩ | ⟨m, h, rfl⟩
  · exact hi i h
  · exact forall_fields_implementation hm hs hi h

theorem inheritFields_eq_map (fs : List Field) (rebased : List (SelectionKey × SelectionKey)) :
    inheritFields fs rebased = fs.map (Field.withDerivedKeys (rebaseKey rebased)) :=
  fieldsWithDerivedKeys_eq_map _ fs

theorem forall_fields_inherit {fs : List Field} {keys : OrderedSet SelectionKey}
    {typeCondition : String} (hd : KeptThrough keys Q) (h : ∀ f ∈ fs, Q f) :
    ∀ f ∈ inheritFields fs (rebasedKeys keys typeCondition), Q f := by
  rw [inheritFields_eq_map]
  intro f hf
  obtain ⟨g, hg, rfl⟩ := List.mem_map.1 hf
  exact hd _ g (h g hg)

theorem forall_fields_mergeInterfaces (hm : Keeps merge Q) (h : ∀ i ∈ is, ∀ f ∈ i.fields, Q f) :
    ∀ j ∈ mergeInterfaces merge is, ∀ f ∈ j.fields, Q f := by
  refine mergeInterfaces_forall (p := fun i => ∀ f ∈ i.fields, Q f) (fun a b ha hb => ?_) h
  exact hm _ (List.forall_mem_append.2 ⟨ha, hb⟩)

/-! ## Merged pairs -/

section Pair

variable (pass : Pass) (merge : List Field → List Field) (a b : Field)

/-- The interfaces of a merged pair. -/
def pairInterfaces : List Interface :=
  (mergeInterfaces merge (interfacesIn (a.fragments ++ b.fragments))).map
    (coverFields merge (merge (a.fields ++ b.fields)) (a.keys.union b.keys))

/-- The selection of a merged pair. -/
def pairSite : Site where
  fields := merge (a.fields ++ b.fields)
  suffix := capitalize a.responseName
  possibleTypes := pass.schema.possibleTypes a.type.innermostName
  keys := a.keys.union b.keys

theorem mergeFieldPair_eq :
    mergeFieldPair pass merge a b =
      { a with
        conditions := extendConditions a.conditions b.conditions
        fields := merge (a.fields ++ b.fields)
        fragments := assemble pass merge (pairInterfaces merge a b) (pairSite pass merge a b)
        keys := a.keys.union b.keys } := rfl

@[simp] theorem fields_mergeFieldPair :
    (mergeFieldPair pass merge a b).fields = merge (a.fields ++ b.fields) := rfl

@[simp] theorem keys_mergeFieldPair :
    (mergeFieldPair pass merge a b).keys = a.keys.union b.keys := rfl

@[simp] theorem type_mergeFieldPair : (mergeFieldPair pass merge a b).type = a.type := rfl

@[simp] theorem responseName_mergeFieldPair :
    (mergeFieldPair pass merge a b).responseName = a.responseName := rfl

theorem fragments_mergeFieldPair :
    (mergeFieldPair pass merge a b).fragments =
      assemble pass merge (pairInterfaces merge a b) (pairSite pass merge a b) := rfl

@[simp] theorem interfacesIn_mergeFieldPair :
    interfacesIn (mergeFieldPair pass merge a b).fragments = pairInterfaces merge a b := by
  rw [fragments_mergeFieldPair, interfacesIn_assemble]

/-- No two interfaces of a merged pair have the same type condition. -/
theorem nodup_typeConditions_pair :
    ((pairInterfaces merge a b).map Interface.typeCondition).Nodup := by
  rw [pairInterfaces, List.map_map]
  exact nodup_typeConditions

end Pair

section PairSubfields

variable {a b : Field}

theorem forall_fields_of_pair (ha : ∀ c ∈ a.subfields, Q c) (hb : ∀ c ∈ b.subfields, Q c) :
    ∀ c ∈ a.fields ++ b.fields, Q c := by
  intro c hc
  rcases List.mem_append.1 hc with hc | hc
  · exact ha c (mem_subfieldsOf.2 (.inl hc))
  · exact hb c (mem_subfieldsOf.2 (.inl hc))

theorem forall_interfaces_of_pair (ha : ∀ c ∈ a.subfields, Q c) (hb : ∀ c ∈ b.subfields, Q c) :
    ∀ i ∈ interfacesIn (a.fragments ++ b.fragments), ∀ c ∈ i.fields, Q c := by
  intro i hi c hc
  rcases List.mem_append.1 (mem_interfacesIn.1 hi) with h | h
  · exact ha c (mem_subfieldsOf.2 (.inr ⟨_, h, hc⟩))
  · exact hb c (mem_subfieldsOf.2 (.inr ⟨_, h, hc⟩))

/-- What an interface of a pair is merged from: the merged fields, with keys derived,
and its own ones. -/
theorem forall_covered (hm : Keeps merge Q) (hd : KeptThrough (a.keys.union b.keys) Q)
    (ha : ∀ c ∈ a.subfields, Q c) (hb : ∀ c ∈ b.subfields, Q c) :
    ∀ i ∈ mergeInterfaces merge (interfacesIn (a.fragments ++ b.fragments)),
      ∀ c ∈ inheritFields (merge (a.fields ++ b.fields))
          (rebasedKeys (a.keys.union b.keys) i.typeCondition) ++ i.fields, Q c := by
  intro i hi c hc
  rcases List.mem_append.1 hc with hc | hc
  · exact forall_fields_inherit hd (hm _ (forall_fields_of_pair ha hb)) c hc
  · exact forall_fields_mergeInterfaces hm (forall_interfaces_of_pair ha hb) i hi c hc

theorem forall_fields_pairInterfaces (hm : Keeps merge Q)
    (hd : KeptThrough (a.keys.union b.keys) Q) (ha : ∀ c ∈ a.subfields, Q c)
    (hb : ∀ c ∈ b.subfields, Q c) :
    ∀ i ∈ pairInterfaces merge a b, ∀ c ∈ i.fields, Q c := by
  intro i hi
  obtain ⟨j, hj, rfl⟩ := List.mem_map.1 hi
  exact hm _ (forall_covered hm hd ha hb j hj)

/-- **What is below a merged pair** has every property of what is below the two. -/
theorem forall_subfields_mergeFieldPair (hm : Keeps merge Q)
    (hd : KeptThrough (a.keys.union b.keys) Q) (ha : ∀ c ∈ a.subfields, Q c)
    (hb : ∀ c ∈ b.subfields, Q c) :
    ∀ c ∈ (mergeFieldPair pass merge a b).subfields, Q c := by
  have hf : ∀ c ∈ merge (a.fields ++ b.fields), Q c := hm _ (forall_fields_of_pair ha hb)
  have hi := forall_fields_pairInterfaces hm hd ha hb
  intro c hc
  rcases mem_subfieldsOf.1 hc with hc | ⟨g, hg, hc⟩
  · exact hf c hc
  · exact forall_fields_assemble (pairSite pass merge a b) hm hf hi g hg c hc

end PairSubfields

/-! ## Merged lists -/

theorem responseName_foldl (first : Field) (others : List Field) :
    (others.foldl (mergeFieldPair pass merge) first).responseName = first.responseName := by
  induction others generalizing first with
  | nil => rfl
  | cons o others ih => rw [List.foldl_cons, ih, responseName_mergeFieldPair]

theorem names_mergeFieldsAt_succ (n : Nat) (fs : List Field) :
    (mergeFieldsAt pass (n + 1) fs).map Field.responseName =
      (groupBy Field.responseName fs).map Group.key := by
  rw [mergeFieldsAt, List.map_map]
  refine List.map_congr_left fun g hg => ?_
  rw [Function.comp_apply, responseName_foldl]
  exact ((mem_members_iff hg).1 List.mem_cons_self).2

/-- **Merging keeps the response names.** -/
theorem mem_names_mergeFieldsAt {n : Nat} {fs : List Field} {name : String} :
    name ∈ (mergeFieldsAt pass n fs).map Field.responseName ↔ name ∈ fs.map Field.responseName := by
  cases n with
  | zero => rfl
  | succ n => rw [names_mergeFieldsAt_succ, mem_keys_groupBy]

theorem eq_nil_of_fieldsDepth {fs : List Field} (h : fieldsDepth fs = 0) : fs = [] := by
  cases fs with
  | nil => rfl
  | cons f fs =>
    have := fieldsDepth_le.1 (Nat.le_of_eq h) f List.mem_cons_self
    have := f.depth_pos
    omega

/-- **Each response name is left once.** -/
theorem nodup_names_mergeFields (fs : List Field) :
    ((mergeFields pass fs).map Field.responseName).Nodup := by
  rw [mergeFields]
  cases h : fieldsDepth fs with
  | zero => rw [eq_nil_of_fieldsDepth h]; exact List.Pairwise.nil
  | succ n =>
    rw [names_mergeFieldsAt_succ]
    exact keys_nodup_groupBy _ _

theorem mem_names_mergeFields {fs : List Field} {name : String} :
    name ∈ (mergeFields pass fs).map Field.responseName ↔ name ∈ fs.map Field.responseName :=
  mem_names_mergeFieldsAt

end SelectionModel
