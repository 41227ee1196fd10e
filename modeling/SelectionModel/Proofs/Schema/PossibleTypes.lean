import Mathlib.Logic.Relation
import SelectionModel.Proofs.Schema.Drafts
import SelectionModel.Schema.PossibleTypes

/-!
# Possible types are reached

An object stands for itself, and for it stand the interfaces that are reached from it along
`implements` clauses. These may lead in circles: whoever follows them drops what was seen,
so every clause is read once and following ends.

* `Following`: following interfaces step by step, without a bound.
* `exists_following`: **following ends**, after as many steps as there are names to read.
* `Following.mem_iff`: **it finds what is reached**, and nothing else.
* `possible_types_reached`: **what the types of a schema stand for.**
-/

namespace SelectionModel

/-! ## Following interfaces -/

section Follow

variable {types : List TypeDefinition} {seen result : OrderedSet String} {pending : List String}
  {name : String} {steps : Nat}

/-- **Following interfaces**: a pending name that was seen is dropped, and the place of a new
one is taken by the interfaces that it names. It ends after some steps with what was seen. -/
inductive Following (types : List TypeDefinition) :
    OrderedSet String → List String → OrderedSet String → Nat → Prop where
  | done {seen : OrderedSet String} : Following types seen [] seen 0
  | known {seen result : OrderedSet String} {name : String} {pending : List String} {steps : Nat} :
    name ∈ seen → Following types seen pending result steps →
    Following types seen (name :: pending) result (steps + 1)
  | new {seen result : OrderedSet String} {name : String} {pending : List String} {steps : Nat} :
    name ∉ seen →
    Following types (seen.insert name) (interfacesOf types name ++ pending) result steps →
    Following types seen (name :: pending) result (steps + 1)

/-- How many names stand in `implements` clauses of types that have not been seen. -/
def clausesLeft (types : List TypeDefinition) (seen : OrderedSet String) : Nat :=
  ((types.filter fun t => t.name ∉ seen).flatMap fun t => t.body.implements).length

theorem clausesLeft_cons (t : TypeDefinition) :
    clausesLeft (t :: types) seen =
      (if t.name ∈ seen then 0 else t.body.implements.length) + clausesLeft types seen := by
  by_cases h : t.name ∈ seen <;> simp [clausesLeft, h]

theorem clausesLeft_empty :
    clausesLeft types ∅ = (types.flatMap fun t => t.body.implements).length := by
  have hnone : ∀ n : String, n ∉ (∅ : OrderedSet String) := fun _ => List.not_mem_nil
  simp only [clausesLeft, hnone, not_false_iff, decide_true, List.filter_true]

theorem clausesLeft_insert_le : clausesLeft types (seen.insert name) ≤ clausesLeft types seen := by
  induction types with
  | nil => exact Nat.le_refl _
  | cons t types ih =>
    rw [clausesLeft_cons, clausesLeft_cons]
    refine Nat.add_le_add ?_ ih
    by_cases h : t.name ∈ seen
    · rw [if_pos (OrderedSet.mem_insert.2 (.inl h))]
      exact Nat.zero_le _
    · rw [if_neg h]
      split <;> omega

theorem interfacesOf_cons (t : TypeDefinition) :
    interfacesOf (t :: types) name =
      if t.name = name then if t.body.isInterface then t.body.implements else []
      else interfacesOf types name := by
  by_cases h : t.name = name <;> simp [interfacesOf, findType?, h]

/-- **Reading the clause of a new name uses it up.** -/
theorem clausesLeft_insert (h : name ∉ seen) :
    (interfacesOf types name).length + clausesLeft types (seen.insert name) ≤
      clausesLeft types seen := by
  induction types with
  | nil => exact Nat.le_refl _
  | cons t types ih =>
    rw [interfacesOf_cons, clausesLeft_cons, clausesLeft_cons]
    by_cases ht : t.name = name
    · have hle : clausesLeft types (seen.insert name) ≤ clausesLeft types seen :=
        clausesLeft_insert_le
      rw [if_pos ht, ht, if_pos (OrderedSet.mem_insert.2 (.inr rfl)), if_neg h]
      split
      · omega
      · rw [List.length_nil]; omega
    · have hsame : t.name ∈ seen.insert name ↔ t.name ∈ seen := by simp [ht]
      rw [if_neg ht, if_congr hsame rfl rfl]
      omega

/-- **Following ends**, and the bound leaves room for all of its steps. -/
theorem exists_following {bound : Nat} (seen : OrderedSet String) (pending : List String)
    (h : pending.length + clausesLeft types seen ≤ bound) :
    ∃ steps ≤ bound, Following types seen pending (reachInterfaces types bound seen pending)
      steps := by
  induction bound generalizing seen pending with
  | zero =>
    obtain rfl : pending = [] := List.eq_nil_of_length_eq_zero (by omega)
    exact ⟨0, Nat.le_refl _, .done⟩
  | succ bound ih =>
    cases pending with
    | nil => exact ⟨0, Nat.zero_le _, .done⟩
    | cons name pending =>
      rw [List.length_cons] at h
      rw [reachInterfaces]
      by_cases hs : name ∈ seen
      · obtain ⟨steps, hle, hf⟩ := ih seen pending (by omega)
        rw [if_pos hs]
        exact ⟨steps + 1, Nat.succ_le_succ hle, .known hs hf⟩
      · have hread : (interfacesOf types name).length + clausesLeft types (seen.insert name) ≤
            clausesLeft types seen := clausesLeft_insert hs
        obtain ⟨steps, hle, hf⟩ := ih (seen.insert name) (interfacesOf types name ++ pending)
          (by rw [List.length_append]; omega)
        rw [if_neg hs]
        exact ⟨steps + 1, Nat.succ_le_succ hle, .new hs hf⟩

/-- A defined interface names another one. -/
def Names (types : List TypeDefinition) (a b : String) : Prop := b ∈ interfacesOf types a

/-- What interfaces that were seen name has been seen or is pending. -/
def Pursued (types : List TypeDefinition) (seen : OrderedSet String) (pending : List String) :
    Prop :=
  ∀ a ∈ seen, ∀ b, Names types a b → b ∈ seen ∨ b ∈ pending

/-- What is reached from a name that was seen has been seen, or is reached from a pending one. -/
theorem Pursued.reached (h : Pursued types seen pending) {a b : String} (ha : a ∈ seen)
    (hab : Relation.ReflTransGen (Names types) a b) :
    b ∈ seen ∨ ∃ p ∈ pending, Relation.ReflTransGen (Names types) p b := by
  induction hab using Relation.ReflTransGen.head_induction_on with
  | refl => exact .inl ha
  | head hac hcb ih =>
    rcases h _ ha _ hac with hc | hc
    · exact ih hc
    · exact .inr ⟨_, hc, hcb⟩

/-- **Following finds what was seen and what is reached from the pending names.** -/
theorem Following.mem_iff (h : Following types seen pending result steps)
    (hp : Pursued types seen pending) {x : String} :
    x ∈ result ↔ x ∈ seen ∨ ∃ p ∈ pending, Relation.ReflTransGen (Names types) p x := by
  induction h with
  | done => simp
  | @known seen result name pending steps hs _ ih =>
    have hp' : Pursued types seen pending := fun a ha b hab => by
      rcases hp a ha b hab with hb | hb
      · exact .inl hb
      rcases List.mem_cons.1 hb with rfl | hb
      · exact .inl hs
      · exact .inr hb
    rw [ih hp']
    constructor
    · rintro (hx | ⟨p, hm, hx⟩)
      · exact .inl hx
      · exact .inr ⟨p, List.mem_cons_of_mem _ hm, hx⟩
    · rintro (hx | ⟨p, hm, hx⟩)
      · exact .inl hx
      rcases List.mem_cons.1 hm with rfl | hm
      · exact hp'.reached hs hx
      · exact .inr ⟨p, hm, hx⟩
  | @new seen result name pending steps hs _ ih =>
    have hp' : Pursued types (seen.insert name) (interfacesOf types name ++ pending) := by
      intro a ha b hab
      rcases OrderedSet.mem_insert.1 ha with ha | rfl
      · rcases hp a ha b hab with hb | hb
        · exact .inl (OrderedSet.mem_insert.2 (.inl hb))
        rcases List.mem_cons.1 hb with rfl | hb
        · exact .inl (OrderedSet.mem_insert.2 (.inr rfl))
        · exact .inr (List.mem_append_right _ hb)
      · exact .inr (List.mem_append_left _ hab)
    rw [ih hp', OrderedSet.mem_insert]
    -- the name itself, or what is reached from those that it names
    constructor
    · rintro ((hx | rfl) | ⟨p, hm, hx⟩)
      · exact .inl hx
      · exact .inr ⟨x, List.mem_cons_self, .refl⟩
      rcases List.mem_append.1 hm with hm | hm
      · exact .inr ⟨name, List.mem_cons_self, .head hm hx⟩
      · exact .inr ⟨p, List.mem_cons_of_mem _ hm, hx⟩
    · rintro (hx | ⟨p, hm, hx⟩)
      · exact .inl (.inl hx)
      rcases List.mem_cons.1 hm with rfl | hm
      · rcases Relation.ReflTransGen.cases_head hx with rfl | ⟨q, hq, hx⟩
        · exact .inl (.inr rfl)
        · exact .inr ⟨q, List.mem_append_left _ hq, hx⟩
      · exact .inr ⟨p, List.mem_append_right _ hm, hx⟩

/-- All interfaces of an object are found in as many steps as there are names to read. -/
theorem following_allInterfaces (types : List TypeDefinition) (implements : List String) :
    ∃ steps ≤ implements.length + (types.flatMap fun t => t.body.implements).length,
      Following types ∅ implements (allInterfaces types implements) steps := by
  rw [allInterfaces]
  exact exists_following ∅ implements (Nat.add_le_add_left (Nat.le_of_eq clausesLeft_empty) _)

theorem mem_allInterfaces {implements : List String} :
    name ∈ allInterfaces types implements ↔
      ∃ p ∈ implements, Relation.ReflTransGen (Names types) p name := by
  obtain ⟨steps, -, hf⟩ := following_allInterfaces types implements
  have hp : Pursued types ∅ implements := fun a ha => absurd ha List.not_mem_nil
  have hnone : name ∉ (∅ : OrderedSet String) := List.not_mem_nil
  rw [hf.mem_iff hp, or_iff_right hnone]

end Follow

/-! ## Interfaces that are reached -/

namespace Schema

variable {s : Schema}

/-- A type names another one in its `implements` clause. -/
def Implements (s : Schema) (type interface : String) : Prop :=
  ∃ t, s.type? type = some t ∧ interface ∈ t.body.implements

/-- A name is that of a defined interface. -/
def IsInterface (s : Schema) (name : String) : Prop :=
  ∃ t, s.type? name = some t ∧ t.body.isInterface = true

/-- **A type is reached from another one** along `implements` clauses. The types in between
are defined interfaces. -/
inductive Reaches (s : Schema) (type : String) : String → Prop where
  | direct {interface : String} : s.Implements type interface → Reaches s type interface
  | through {i interface : String} : Reaches s type i → s.IsInterface i →
    s.Implements i interface → Reaches s type interface

theorem names_iff {a b : String} : Names s.types a b ↔ s.IsInterface a ∧ s.Implements a b := by
  rw [Names, interfacesOf]
  constructor
  · intro h
    split at h
    next t ht =>
      split at h
      next hi => exact ⟨⟨t, ht, hi⟩, t, ht, h⟩
      · cases h
    · cases h
  · rintro ⟨⟨t, ht, hi⟩, u, hu, hb⟩
    have hut : some u = some t := hu.symm.trans ht
    obtain rfl := Option.some.inj hut
    have hfind : findType? s.types a = some u := hu
    rw [hfind]
    simpa [hi] using hb

/-- **All interfaces of a type are those that are reached from it.** -/
theorem mem_allInterfaces_iff {t : TypeDefinition} (ht : s.type? t.name = some t) {name : String} :
    name ∈ allInterfaces s.types t.body.implements ↔ s.Reaches t.name name := by
  rw [mem_allInterfaces]
  constructor
  · rintro ⟨p, hp, h⟩
    induction h with
    | refl => exact .direct ⟨t, ht, hp⟩
    | tail _ hab ih =>
      obtain ⟨hi, himp⟩ := names_iff.1 hab
      exact .through ih hi himp
  · intro h
    induction h with
    | @direct interface himp =>
      obtain ⟨u, hu, hm⟩ := himp
      obtain rfl := Option.some.inj (hu.symm.trans ht)
      exact ⟨interface, hm, .refl⟩
    | through _ hi himp ih =>
      obtain ⟨p, hp, h⟩ := ih
      exact ⟨p, hp, h.tail (names_iff.2 ⟨hi, himp⟩)⟩

/-- Every name in an `implements` clause that is defined is that of an interface. -/
def ImplementsInterfaces (s : Schema) : Prop :=
  ∀ t ∈ s.types, ∀ name ∈ t.body.implements, (s.type? name).all (·.body.isInterface) = true

/-- A defined type that is reached is an interface. -/
theorem Reaches.isInterface (hi : s.ImplementsInterfaces) {type name : String}
    (h : s.Reaches type name) {u : TypeDefinition} (hu : s.type? name = some u) :
    u.body.isInterface = true := by
  have named : ∀ {a : String}, s.Implements a name → u.body.isInterface = true := by
    rintro a ⟨t, ht, hm⟩
    have hall := hi t (mem_of_findType? ht).1 name hm
    rwa [hu] at hall
  cases h with
  | direct himp => exact named himp
  | through _ _ himp => exact named himp

end Schema

/-! ## What a definition contributes -/

section Contribution

variable {types : List TypeDefinition} {name : String}

/-- The object types that a definition adds to those a name stands for. -/
def contribution (types : List TypeDefinition) (name : String) (t : TypeDefinition) :
    List String :=
  match t.body with
  | .object implements _ =>
    if t.name = name ∨ name ∈ allInterfaces types implements then [t.name] else []
  | .union members => if t.name = name then members.filter (isObjectName types) else []
  | _ => []

theorem addPossible_eq (possible : OrderedSet String) (t : TypeDefinition) :
    addPossible types name possible t = possible.insertAll (contribution types name t) := by
  rw [addPossible, contribution]
  cases t.body with
  | object => dsimp only; split <;> rfl
  | union => dsimp only; split <;> rfl
  | _ => rfl

/-- **The possible types of a name** are what the definitions contribute, in their order. -/
theorem possibleTypesOf_eq :
    possibleTypesOf types name = .ofList (types.flatMap (contribution types name)) := by
  have hfold : ∀ (ts : List TypeDefinition) (possible : OrderedSet String),
      ts.foldl (addPossible types name) possible =
        possible.insertAll (ts.flatMap (contribution types name)) := by
    intro ts
    induction ts with
    | nil => exact fun _ => rfl
    | cons t ts ih =>
      intro possible
      rw [List.foldl_cons, addPossible_eq, ih, List.flatMap_cons, OrderedSet.insertAll_append]
  exact hfold types ∅

/-- Where only one of the types contributes, its contribution is all. -/
theorem flatMap_eq_of_unique {f : TypeDefinition → List String} {t : TypeDefinition}
    (hn : (typeNames types).Nodup) (ht : t ∈ types)
    (h : ∀ u ∈ types, u.name ≠ t.name → f u = []) : types.flatMap f = f t := by
  induction types with
  | nil => cases ht
  | cons u types ih =>
    obtain ⟨hu, hn⟩ := List.nodup_cons.1 hn
    rw [List.flatMap_cons]
    rcases List.mem_cons.1 ht with rfl | ht
    · have hnil : types.flatMap f = [] := List.flatMap_eq_nil_iff.2 fun v hv =>
        h v (List.mem_cons_of_mem _ hv) fun he => hu (he ▸ List.mem_map_of_mem hv)
      rw [hnil, List.append_nil]
    · have hne : u.name ≠ t.name := fun he => hu (he ▸ List.mem_map_of_mem ht)
      rw [h u List.mem_cons_self hne, List.nil_append]
      exact ih hn ht fun v hv => h v (List.mem_cons_of_mem _ hv)

/-- Where every type contributes its own name or nothing, the names keep their order. -/
theorem flatMap_sublist_names {f : TypeDefinition → List String}
    (h : ∀ u ∈ types, f u = [] ∨ f u = [u.name]) :
    (types.flatMap f).Sublist (typeNames types) := by
  induction types with
  | nil => exact .slnil
  | cons u types ih =>
    obtain ⟨hu, h⟩ := List.forall_mem_cons.1 h
    rw [List.flatMap_cons]
    rcases hu with hu | hu
    · rw [hu]
      exact (ih h).cons _
    · rw [hu]
      exact (ih h).cons_cons _

end Contribution

/-! ## What types stand for -/

namespace Schema

/-- **What a type stands for**: an object for itself; an interface for the objects from which
it is reached, in the order of the schema; a union for its members that are objects, each at
its first place; any other type for nothing. -/
def StandsFor (s : Schema) (t : TypeDefinition) (possible : OrderedSet String) : Prop :=
  match t.body with
  | .object _ _ => possible = .singleton t.name
  | .interface _ _ =>
    possible.toList.Sublist (typeNames s.types) ∧
      ∀ name, name ∈ possible ↔ isObjectName s.types name = true ∧ s.Reaches name t.name
  | .union members => possible = .ofList (members.filter (isObjectName s.types))
  | _ => possible = ∅

variable {s : Schema} {t : TypeDefinition}

theorem type?_of_mem (hn : (typeNames s.types).Nodup) (ht : t ∈ s.types) :
    s.type? t.name = some t :=
  findType?_of_mem hn ht

/-- Only a type itself contributes to what it stands for, unless it is an interface. -/
theorem possibleTypes_eq_of_not_interface (hn : (typeNames s.types).Nodup)
    (hi : s.ImplementsInterfaces) (ht : t ∈ s.types) (hb : t.body.isInterface = false) :
    s.possibleTypes t.name = .ofList (contribution s.types t.name t) := by
  rw [possibleTypes, possibleTypesOf_eq, flatMap_eq_of_unique hn ht]
  intro u hu hne
  rw [contribution]
  split
  next implements fields hbody =>
    refine if_neg (not_or.2 ⟨hne, fun hm => ?_⟩)
    -- what is reached from another type is an interface
    have hm' : t.name ∈ allInterfaces s.types u.body.implements := by rwa [hbody]
    have hr := (mem_allInterfaces_iff (type?_of_mem hn hu)).1 hm'
    rw [hr.isInterface hi (type?_of_mem hn ht)] at hb
    cases hb
  · exact if_neg hne
  · rfl

/-- A type contributes its name to an interface that is reached from it. -/
theorem contribution_interface (hn : (typeNames s.types).Nodup) (ht : t ∈ s.types)
    (hb : t.body.isInterface = true) {u : TypeDefinition} (hu : u ∈ s.types) :
    (contribution s.types t.name u = [] ∧ ¬(u.body.isObject = true ∧ s.Reaches u.name t.name)) ∨
      (contribution s.types t.name u = [u.name] ∧ u.body.isObject = true ∧
        s.Reaches u.name t.name) := by
  have same : u.name = t.name → u.body.isInterface = true := fun he => by
    rwa [List.inj_on_of_nodup_map hn hu ht he]
  have hmem : t.name ∈ allInterfaces s.types u.body.implements ↔ s.Reaches u.name t.name :=
    mem_allInterfaces_iff (type?_of_mem hn hu)
  rw [contribution]
  cases hbody : u.body with
  | object implements fields =>
    have hne : u.name ≠ t.name := fun he => by
      have hsame := same he
      rw [hbody] at hsame
      cases hsame
    rw [hbody] at hmem
    by_cases hr : s.Reaches u.name t.name
    · exact .inr ⟨if_pos (.inr (hmem.2 hr)), rfl, hr⟩
    · exact .inl ⟨if_neg (not_or.2 ⟨hne, mt hmem.1 hr⟩), fun h => hr h.2⟩
  | union members =>
    have hne : u.name ≠ t.name := fun he => by
      have hsame := same he
      rw [hbody] at hsame
      cases hsame
    exact .inl ⟨if_neg hne, by simp [TypeBody.isObject]⟩
  | _ => exact .inl ⟨rfl, by simp [TypeBody.isObject]⟩

/-- **What an interface stands for.** -/
theorem possibleTypes_interface (hn : (typeNames s.types).Nodup) (ht : t ∈ s.types)
    (hb : t.body.isInterface = true) :
    (s.possibleTypes t.name).toList.Sublist (typeNames s.types) ∧
      ∀ name, name ∈ s.possibleTypes t.name ↔
        isObjectName s.types name = true ∧ s.Reaches name t.name := by
  have hsub : (s.types.flatMap (contribution s.types t.name)).Sublist (typeNames s.types) :=
    flatMap_sublist_names fun u hu =>
      (contribution_interface hn ht hb hu).imp (fun h => h.1) fun h => h.1
  rw [possibleTypes, possibleTypesOf_eq, OrderedSet.toList_ofList (hsub.nodup hn)]
  refine ⟨hsub, fun name => ?_⟩
  rw [OrderedSet.mem_ofList, List.mem_flatMap, isObjectName]
  constructor
  · rintro ⟨u, hu, hm⟩
    rcases contribution_interface hn ht hb hu with ⟨he, -⟩ | ⟨he, ho, hr⟩
    · rw [he] at hm
      cases hm
    · rw [he] at hm
      obtain rfl := List.mem_singleton.1 hm
      rw [findType?_of_mem hn hu]
      exact ⟨ho, hr⟩
  · rintro ⟨ho, hr⟩
    split at ho
    next u hu =>
      obtain ⟨hmem, rfl⟩ := mem_of_findType? hu
      rcases contribution_interface hn ht hb hmem with ⟨-, hnot⟩ | ⟨he, -⟩
      · exact absurd ⟨ho, hr⟩ hnot
      · exact ⟨u, hmem, by rw [he]; exact List.mem_singleton_self _⟩
    · cases ho

theorem standsFor_possibleTypes (hn : (typeNames s.types).Nodup) (hi : s.ImplementsInterfaces)
    (ht : t ∈ s.types) : s.StandsFor t (s.possibleTypes t.name) := by
  have own := possibleTypes_eq_of_not_interface hn hi ht
  rw [StandsFor]
  rw [contribution] at own
  cases hb : t.body with
  | object implements fields =>
    simp only [hb] at own
    rw [own rfl, if_pos (.inl trivial)]
    rfl
  | interface implements fields => exact possibleTypes_interface hn ht (by rw [hb]; rfl)
  | union members =>
    simp only [hb] at own
    rw [own rfl, if_pos trivial]
  | _ =>
    simp only [hb] at own
    exact own rfl

end Schema

/-- **Possible types are exactly what is reached**, in every schema that is built from loaded
documents and whose types implement interfaces only. To find the interfaces of an object,
every name in a clause is read once at most, also where clauses lead in circles. -/
theorem possible_types_reached {d : SchemaDraft} {schema : Schema} (hd : d.Loaded)
    (hb : d.build = .ok schema) (hi : schema.ImplementsInterfaces) :
    (∀ t ∈ schema.types, schema.StandsFor t (schema.possibleTypes t.name)) ∧
      ∀ (types : List TypeDefinition) (implements : List String),
        ∃ steps ≤ implements.length + (types.flatMap fun t => t.body.implements).length,
          Following types ∅ implements (allInterfaces types implements) steps := by
  constructor
  · intro t ht
    exact Schema.standsFor_possibleTypes (SchemaDraft.nodup_names_of_build hd hb) hi ht
  · exact following_allInterfaces

namespace Sample

/-- Two interfaces that implement each other, one of them also itself. -/
def circularText : List Char :=
  "type Query { a: A }
interface A implements B { x: ID }
type T implements A { x: ID }
interface B implements A & B { x: ID }
union U = T | Missing | Query | T".toList

end Sample

/-- Each of the two interfaces stands for the object that implements one of them. -/
theorem sample_possible_types :
    ∃ (d : SchemaDraft) (schema : Schema), d.Loaded ∧ d.build = .ok schema ∧
      schema.ImplementsInterfaces ∧ (schema.possibleTypes "B").toList = ["T"] ∧
      (schema.possibleTypes "U").toList = ["T", "Query"] ∧
      ∀ t ∈ schema.types, schema.StandsFor t (schema.possibleTypes t.name) := by
  obtain ⟨schema, hbuild, hi, hB, hU⟩ := Except.exists_of_any
    (x := SchemaDraft.empty.load none Sample.circularText >>= SchemaDraft.build)
    (p := fun schema =>
      (∀ t ∈ schema.types, ∀ name ∈ t.body.implements,
        (schema.type? name).all (·.body.isInterface) = true) ∧
      (schema.possibleTypes "B").toList = ["T"] ∧
      (schema.possibleTypes "U").toList = ["T", "Query"]) (by decide +kernel)
  obtain ⟨d, hload, hb⟩ := Except.bind_eq_ok.1 hbuild
  have hd : d.Loaded := .load .empty hload
  exact ⟨d, schema, hd, hb, hi, hB, hU, (possible_types_reached hd hb hi).1⟩

end SelectionModel
