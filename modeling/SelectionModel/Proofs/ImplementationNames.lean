import Mathlib.Data.List.Sublists
import SelectionModel.Proofs.Lowering.Derivation
import SelectionModel.Proofs.Merging.Fields
import SelectionModel.Proofs.Sample

/-!
# Names of implementations

The name of an implementation spells the type conditions that its objects satisfy, without
a mark between them, and a word of its own where they satisfy none. So the type conditions
say what the name is, but a name can be spelled in several ways.

* `spelled`: the word that some type conditions spell.
* `SpelledApart`: type conditions of which no two selections spell the same word.
* `names_spelled`: **which implementations of a selection share their name.**
* `names_shared`: two implementations that do.
-/

namespace SelectionModel

/-! ## Words -/

/-- **The word that type conditions spell**: each with its first letter in upper case, one
behind the other. -/
def spelled (typeConditions : List String) : String :=
  if typeConditions.isEmpty then "Other" else String.join (typeConditions.map capitalize)

theorem implementationName_inj {l m : List String} {suffix : String} :
    implementationName l suffix = implementationName m suffix ↔ spelled l = spelled m := by
  refine ⟨fun h => ?_, fun h => congrArg (· ++ suffix) h⟩
  have hchars := congrArg String.toList h
  rw [implementationName, implementationName, String.toList_append, String.toList_append] at hchars
  exact String.toList_injective (List.append_cancel_right hchars)

section Code

variable {α β : Type} {code : α → List β} {types : List α} {a b c : α} {l m : List α}

/-- Of two words in front of the same, one starts the other. -/
theorem eq_of_code_append (hp : ∀ a ∈ types, ∀ b ∈ types, code a <+: code b → a = b)
    (ha : a ∈ types) (hb : b ∈ types) {u v : List β} (h : code a ++ u = code b ++ v) : a = b := by
  have ha' : code a <+: code a ++ u := List.prefix_append _ _
  have hb' : code b <+: code a ++ u := h ▸ List.prefix_append _ _
  rcases List.prefix_or_prefix_of_prefix ha' hb' with hab | hba
  · exact hp a ha b hb hab
  · exact (hp b hb a ha hba).symm

/-- An empty word would start all others. -/
theorem flatMap_code_ne_nil (hp : ∀ a ∈ types, ∀ b ∈ types, code a <+: code b → a = b)
    (hn : (a :: c :: l).Nodup) (hs : ∀ x ∈ a :: c :: l, x ∈ types) :
    (c :: l).flatMap code ≠ [] := by
  intro he
  have hc : code c = [] := List.flatMap_eq_nil_iff.1 he c List.mem_cons_self
  have hca : c = a := hp c (hs c (by simp)) a (hs a (by simp)) (hc ▸ List.nil_prefix)
  exact (List.nodup_cons.1 hn).1 (hca ▸ List.mem_cons_self)

/-- **Where no word starts another one**, words can be told without a mark between them. -/
theorem eq_of_flatMap_code (hp : ∀ a ∈ types, ∀ b ∈ types, code a <+: code b → a = b)
    (hl : (a :: l).Nodup) (hm : (b :: m).Nodup) (hls : ∀ x ∈ a :: l, x ∈ types)
    (hms : ∀ x ∈ b :: m, x ∈ types) (h : (a :: l).flatMap code = (b :: m).flatMap code) :
    a :: l = b :: m := by
  induction l generalizing a b m with
  | nil =>
    obtain rfl := eq_of_code_append hp (hls a (by simp)) (hms b (by simp)) h
    cases m with
    | nil => rfl
    | cons d m => exact absurd (List.append_cancel_left h).symm (flatMap_code_ne_nil hp hm hms)
  | cons c l ih =>
    obtain rfl := eq_of_code_append hp (hls a (by simp)) (hms b (by simp)) h
    have hrest : (c :: l).flatMap code = m.flatMap code := List.append_cancel_left h
    cases m with
    | nil => exact absurd hrest (flatMap_code_ne_nil hp hl hls)
    | cons d m =>
      have htail := ih (List.nodup_cons.1 hl).2 (List.nodup_cons.1 hm).2
        (fun x hx => hls x (List.mem_cons_of_mem _ hx))
        (fun x hx => hms x (List.mem_cons_of_mem _ hx)) hrest
      rw [htail]

end Code

/-- **Type conditions that are spelled apart**: with its first letter in upper case, none
starts another one, and no selection of them spells the word for none. -/
structure SpelledApart (types : List String) : Prop where
  start : ∀ a ∈ types, ∀ b ∈ types, (capitalize a).toList <+: (capitalize b).toList → a = b
  none : ∀ l : List String, l.Sublist types → l ≠ [] → spelled l ≠ "Other"

theorem toList_spelled {a : String} {l : List String} :
    (spelled (a :: l)).toList = (a :: l).flatMap fun b => (capitalize b).toList := by
  rw [spelled, List.isEmpty_cons, if_neg Bool.false_ne_true, String.toList_join, List.flatMap_map]

/-- **No two selections of type conditions that are spelled apart spell the same word.** -/
theorem SpelledApart.eq_of_spelled {types l m : List String} (h : SpelledApart types)
    (hn : types.Nodup) (hl : l.Sublist types) (hm : m.Sublist types)
    (he : spelled l = spelled m) : l = m := by
  cases l with
  | nil =>
    cases m with
    | nil => rfl
    | cons b m => exact absurd he.symm (h.none _ hm (List.cons_ne_nil _ _))
  | cons a l =>
    cases m with
    | nil => exact absurd he (h.none _ hl (List.cons_ne_nil _ _))
    | cons b m =>
      have hchars := congrArg String.toList he
      rw [toList_spelled, toList_spelled] at hchars
      exact eq_of_flatMap_code h.start (hl.nodup hn) (hm.nodup hn) (fun _ hx => hl.subset hx)
        (fun _ hx => hm.subset hx) hchars

/-! ## Implementations -/

section Implementations

variable {merge : List Field → List Field} {is : List Interface} {site : Site}
  {m : Implementation}

/-- An implementation is on some of the type conditions, which its name spells. -/
theorem name_of_mem_implementations (hm : m ∈ implementations merge is site) :
    m.typeConditions.Sublist (is.map Interface.typeCondition) ∧
      m.name = implementationName m.typeConditions site.suffix := by
  obtain ⟨type, ht⟩ := possibleTypes_ne_nil hm
  obtain ⟨-, types, rfl⟩ := eq_implementationOf hm ht
  exact ⟨List.filter_sublist.map _, rfl⟩

end Implementations

/-- **Which implementations share their name**: those whose type conditions, which differ,
spell the same word. Where the type conditions of the interfaces are spelled apart, there
are none. -/
theorem names_spelled {merge : List Field → List Field} {is : List Interface} {site : Site}
    (hn : (is.map Interface.typeCondition).Nodup) :
    ((implementations merge is site).Pairwise fun m n => m.typeConditions ≠ n.typeConditions ∧
      (m.name = n.name ↔ spelled m.typeConditions = spelled n.typeConditions)) ∧
    (SpelledApart (is.map Interface.typeCondition) →
      ((implementations merge is site).map Implementation.name).Nodup) := by
  have hpairs : (implementations merge is site).Pairwise fun m n =>
      m.typeConditions ≠ n.typeConditions ∧
        (m.name = n.name ↔ spelled m.typeConditions = spelled n.typeConditions) := by
    refine (implementations_distinct hn).imp_of_mem fun {m n} hm hm' hne => ⟨hne, ?_⟩
    rw [(name_of_mem_implementations hm).2, (name_of_mem_implementations hm').2]
    exact implementationName_inj
  refine ⟨hpairs, fun hs => List.pairwise_map.2 (hpairs.imp_of_mem fun {m n} hm hm' hmn he => ?_)⟩
  exact hmn.1 (hs.eq_of_spelled hn (name_of_mem_implementations hm).1
    (name_of_mem_implementations hm').1 (hmn.2.1 he))

/-! ## Names at two selections

```
node { ... on A { id }  ... on B { id }  ... on N { id } }
node { ... on A { id }  ... on B { id }  ... on AB { id } }
```
-/

namespace Sample

/-- An interface without fields. -/
def interfaceOn (type : String) (possible : List String) : Interface where
  conditions := []
  description := none
  fields := []
  possibleTypes := .ofList possible
  keys := ∅
  typeCondition := type

/-- The interfaces of a selection on `N`. -/
def interfaces : List Interface :=
  [interfaceOn "A" ["A"], interfaceOn "B" ["B"], interfaceOn "N" ["A", "B"]]

/-- The site of the selection. -/
def nodeSite : Site := ⟨[], "Node", .ofList ["A", "B"], nodePlace.keys⟩

theorem spelledApart_interfaces : SpelledApart (interfaces.map Interface.typeCondition) where
  start := by decide +kernel
  none := by
    have hall : ∀ l ∈ (interfaces.map Interface.typeCondition).sublists,
        l ≠ [] → spelled l ≠ "Other" := by decide +kernel
    exact fun l hl => hall l (List.mem_sublists.2 hl)

/-- Objects of type `T` are on `A` and `B`, those of type `S` on `AB`. -/
def joinedSchema : Schema where
  types := [
    typeDefinition "Query" (.object [] [fieldDefinition "node" "N"]),
    typeDefinition "N" (.interface [] [fieldDefinition "id" "ID"]),
    typeDefinition "A" (.interface [] [fieldDefinition "id" "ID"]),
    typeDefinition "B" (.interface [] [fieldDefinition "id" "ID"]),
    typeDefinition "AB" (.interface [] [fieldDefinition "id" "ID"]),
    typeDefinition "T" (.object ["N", "A", "B"] [fieldDefinition "id" "ID"]),
    typeDefinition "S" (.object ["N", "AB"] [fieldDefinition "id" "ID"])]
  query := "Query"
  mutation := none
  subscription := none

/-- The selections on `A`, on `B` and on `AB`. -/
def joined : Selected :=
  Selected.ofFile none
    [on "A" [select "id" []], on "B" [select "id" []], on "AB" [select "id" []]]

end Sample

/-- The implementations for `A` and for `B`, both also on `N`, have names of their own. -/
theorem sample_names_spelled :
    SpelledApart (Sample.interfaces.map Interface.typeCondition) ∧
      ((implementations (mergeFields ⟨Sample.schema, true⟩) Sample.interfaces
        Sample.nodeSite).map Implementation.name).Nodup ∧
      (implementations (mergeFields ⟨Sample.schema, true⟩) Sample.interfaces
        Sample.nodeSite).map Implementation.name = ["ANNode", "BNNode"] := by
  refine ⟨Sample.spelledApart_interfaces, ?_, by decide +kernel⟩
  exact (names_spelled (by decide)).2 Sample.spelledApart_interfaces

/-- **Two implementations of a selection share their name**: that on `A` and `B` spells the
same word as that on `AB`. -/
theorem names_shared :
    ∃ fields fragments,
      lowerPlace ⟨Sample.joinedSchema, true⟩ ⟨[], .nil⟩ Sample.nodePlace Sample.joined =
        .ok (fields, fragments) ∧
      ((interfacesIn fragments).map Interface.typeCondition).Nodup ∧
      implementationsIn fragments =
        implementations (mergeFields ⟨Sample.joinedSchema, true⟩) (interfacesIn fragments)
          (Sample.nodePlace.site ⟨Sample.joinedSchema, true⟩ fields) ∧
      (implementationsIn fragments).map Implementation.name = ["ABNode", "ABNode"] ∧
      (implementationsIn fragments).map Implementation.typeConditions = [["A", "B"], ["AB"]] := by
  obtain ⟨⟨fields, fragments⟩, h, hi, hn, ht⟩ := Except.exists_of_any
    (x := lowerPlace ⟨Sample.joinedSchema, true⟩ ⟨[], .nil⟩ Sample.nodePlace Sample.joined)
    (p := fun r => ((interfacesIn r.2).map Interface.typeCondition).Nodup ∧
      (implementationsIn r.2).map Implementation.name = ["ABNode", "ABNode"] ∧
      (implementationsIn r.2).map Implementation.typeConditions = [["A", "B"], ["AB"]])
    (by decide +kernel)
  refine ⟨fields, fragments, h, hi, ?_, hn, ht⟩
  cases lowersPlace_of_ok h
  rw [implementationsIn_assemble, interfacesIn_assemble]
  rfl

end SelectionModel
