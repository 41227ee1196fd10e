import SelectionModel.Proofs.Keys
import SelectionModel.Proofs.Locality
import SelectionModel.Proofs.Lowering.Narrowing
import SelectionModel.Proofs.Partition
import SelectionModel.Proofs.UsedFragments.Text

/-!
# The roots of selection keys

A key is handed down from a selection to what is in it and only ever gets further steps:
behind its last one, or behind a start that it shares with a key of the same selection.
So what holds of a key at the root, and of every key with more steps, holds of all keys
below it. New keys begin at the fragments that are spread.

* `Keyed`: there is a key, and all keys have a property.
* `keptThrough_keyed`, `keyed_mergeFieldPair`: inheriting and merging.
* `LowersPlace.keyed`: **the keys of lowered selections, at any depth.**
* `keys_rooted`: **the keys in every built tree.**
-/

namespace SelectionModel

/-- A property of keys is kept by further steps. -/
def KeptByExtension (P : SelectionKey → Prop) : Prop :=
  ∀ (k : SelectionKey) (steps : List String), P k → P { k with path := k.path ++ steps }

/-- **There is a key, and all keys have a property.** -/
structure Keyed (P : SelectionKey → Prop) (keys : OrderedSet SelectionKey) : Prop where
  nonempty : ∃ k, k ∈ keys
  all : ∀ k ∈ keys, P k

/-- A field is keyed, and so are its fragments. -/
structure Field.Keyed (P : SelectionKey → Prop) (f : Field) : Prop where
  own : SelectionModel.Keyed P f.keys
  fragment : ∀ g ∈ f.fragments, SelectionModel.Keyed P g.keys

/-- All that is below some selection is keyed: its fragments, and the fields at any
depth with theirs. -/
structure KeyedBelow (P : SelectionKey → Prop) (fields : List Field)
    (fragments : List Fragment) : Prop where
  fragment : ∀ g ∈ fragments, Keyed P g.keys
  field : ∀ c ∈ subfieldsOf fields fragments, c.Everywhere (Field.Keyed P)

/-- A selection set is keyed, and so is all that is below it. -/
structure SelectionSet.Keyed (P : SelectionKey → Prop) (s : SelectionSet) : Prop where
  own : SelectionModel.Keyed P s.keys
  below : KeyedBelow P s.fields s.fragments

section Keys

variable {P Q : SelectionKey → Prop} {keys keys' : OrderedSet SelectionKey}

namespace Keyed

theorem singleton {k : SelectionKey} (h : P k) : Keyed P (.singleton k) where
  nonempty := ⟨k, List.mem_singleton_self k⟩
  all := List.forall_mem_singleton.2 h

theorem union (h : Keyed P keys) (h' : Keyed P keys') : Keyed P (keys.union keys') where
  nonempty := by
    obtain ⟨k, hk⟩ := h.nonempty
    exact ⟨k, OrderedSet.mem_union.2 (.inl hk)⟩
  all k hk := (OrderedSet.mem_union.1 hk).elim (h.all k) (h'.all k)

theorem child (hp : KeptByExtension P) (h : Keyed P keys) (step : String) :
    Keyed P (keys.map (·.child step)) where
  nonempty := by
    obtain ⟨k, hk⟩ := h.nonempty
    exact ⟨_, OrderedSet.mem_map.2 ⟨k, hk, rfl⟩⟩
  all l hl := by
    obtain ⟨k, hk, rfl⟩ := OrderedSet.mem_map.1 hl
    exact hp k [step] (h.all k hk)

/-- Derived keys are added to those that are there. -/
theorem derive {derive : SelectionKey → List SelectionKey} (h : Keyed P keys)
    (hpq : ∀ k, P k → Q k) (hd : ∀ k, P k → ∀ l ∈ derive k, Q l) :
    Keyed Q (deriveKeys derive keys) where
  nonempty := by
    obtain ⟨k, hk⟩ := h.nonempty
    exact ⟨k, mem_deriveKeys.2 (.inl hk)⟩
  all l hl := by
    rcases mem_deriveKeys.1 hl with hl | ⟨k, hk, hl⟩
    · exact hpq l (h.all l hl)
    · exact hd k (h.all k hk) l hl

/-- A fragment has the keys around it one step deeper, and its own root. -/
theorem fragmentKeys (hp : KeptByExtension P) (h : Keyed P keys) {e : EnteredFragment}
    (hn : ∀ name, e.name = some name → P (.ofRoot .fragment (capitalize name))) :
    Keyed P (fragmentKeys keys e) where
  nonempty := by
    obtain ⟨k, hk⟩ := h.nonempty
    exact ⟨_, mem_fragmentKeys.2 (.inl ⟨k, hk, rfl⟩)⟩
  all l hl := by
    rcases mem_fragmentKeys.1 hl with ⟨k, hk, rfl⟩ | ⟨name, he, rfl⟩
    · exact hp k _ (h.all k hk)
    · exact hn name he

theorem foldl_union {members : List Interface} (h : Keyed P keys)
    (hi : ∀ i ∈ members, Keyed P i.keys) :
    Keyed P (members.foldl (fun ks i => ks.union i.keys) keys) where
  nonempty := by
    obtain ⟨k, hk⟩ := h.nonempty
    exact ⟨k, mem_foldl_union.2 (.inl hk)⟩
  all k hk := by
    rcases mem_foldl_union.1 hk with hk | ⟨i, him, hk⟩
    · exact h.all k hk
    · exact (hi i him).all k hk

end Keyed

theorem Field.Keyed.withDerivedKeys {derive : SelectionKey → List SelectionKey} {f : Field}
    (h : f.Keyed P) (hpq : ∀ k, P k → Q k) (hd : ∀ k, P k → ∀ l ∈ derive k, Q l) :
    (f.withDerivedKeys derive).Keyed Q where
  own := by
    rw [keys_withDerivedKeys]
    exact h.own.derive hpq hd
  fragment := by
    rw [fragments_withDerivedKeys]
    intro g' hg'
    obtain ⟨g, hg, rfl⟩ := List.mem_map.1 hg'
    rw [Fragment.keys_withDerivedKeys]
    exact (h.fragment g hg).derive hpq hd

theorem KeyedBelow.withDerivedKeys {derive : SelectionKey → List SelectionKey}
    {fields : List Field} {fragments : List Fragment} (h : KeyedBelow P fields fragments)
    (hpq : ∀ k, P k → Q k) (hd : ∀ k, P k → ∀ l ∈ derive k, Q l) :
    KeyedBelow Q (fields.map (Field.withDerivedKeys derive))
      (fragments.map (Fragment.withDerivedKeys derive)) where
  fragment := by
    intro g' hg'
    obtain ⟨g, hg, rfl⟩ := List.mem_map.1 hg'
    rw [Fragment.keys_withDerivedKeys]
    exact (h.fragment g hg).derive hpq hd
  field := by
    rw [subfieldsOf_withDerivedKeys]
    intro c' hc'
    obtain ⟨c, hc, rfl⟩ := List.mem_map.1 hc'
    exact Field.everywhere_withDerivedKeys _ (fun f hf => hf.withDerivedKeys hpq hd) (h.field c hc)

/-- **A key that a step is put into** starts like a key of the selection. -/
theorem keptThrough_keyed (hp : KeptByExtension P) (hk : ∀ k ∈ keys, P k) :
    KeptThrough keys (Field.Keyed P) := by
  intro typeCondition f h
  refine h.withDerivedKeys (fun _ => id) fun k _ l hl => ?_
  obtain ⟨start, hs, hl⟩ := mem_rebaseKey.1 hl
  obtain ⟨rest, -, rfl⟩ := SelectionKey.rebase?_child hl
  exact hp start (capitalize typeCondition :: rest) (hk start hs)

end Keys

/-! ## Merging -/

section Merging

variable {P : SelectionKey → Prop} {pass : Pass} {merge : List Field → List Field}
  {is : List Interface}

theorem keyed_mergeInterfaces (merge : List Field → List Field)
    (h : ∀ i ∈ is, Keyed P i.keys) : ∀ i ∈ mergeInterfaces merge is, Keyed P i.keys :=
  mergeInterfaces_forall (p := fun i => Keyed P i.keys) (fun _ _ ha hb => ha.union hb) h

/-- The keys of an implementation are those of its site and of interfaces. -/
theorem keyed_assemble (site : Site) (hs : Keyed P site.keys) (hi : ∀ i ∈ is, Keyed P i.keys) :
    ∀ g ∈ assemble pass merge is site, Keyed P g.keys := by
  intro g hg
  rcases mem_assemble hg with ⟨i, h, rfl⟩ | ⟨m, h, rfl⟩
  · exact hi i h
  · obtain ⟨type, ht⟩ := possibleTypes_ne_nil h
    obtain ⟨-, _, rfl⟩ := eq_implementationOf h ht
    exact hs.foldl_union fun i him => hi i (mem_satisfiedBy.1 him).1

theorem keyed_mergeFieldPair {a b : Field} (ha : a.Keyed P) (hb : b.Keyed P) :
    (mergeFieldPair pass merge a b).Keyed P where
  own := ha.own.union hb.own
  fragment := by
    have hi : ∀ i ∈ interfacesIn (a.fragments ++ b.fragments), Keyed P i.keys := by
      intro i hi
      rcases List.mem_append.1 (mem_interfacesIn.1 hi) with h | h
      · exact ha.fragment _ h
      · exact hb.fragment _ h
    refine keyed_assemble (pairSite pass merge a b) (ha.own.union hb.own) fun i hip => ?_
    obtain ⟨j, hj, rfl⟩ := List.mem_map.1 hip
    exact keyed_mergeInterfaces merge hi j hj

/-- **Merged fields are keyed** at any depth. -/
theorem keeps_keyed (pass : Pass) (hp : KeptByExtension P) :
    Keeps (mergeFields pass) (Field.Everywhere (Field.Keyed P)) :=
  keeps_everywhere (fun _ _ ha hb => keptThrough_keyed hp (ha.own.union hb.own).all)
    fun _ _ => keyed_mergeFieldPair

end Merging

/-! ## Lowered selections -/

/-- **A fragment is spread**, directly or in another fragment that is. -/
def Registry.Spreads (registry : Registry) (xs : List PlacedSpread) (g : RegisteredFragment) :
    Prop :=
  ∃ x, Reaches registry xs x ∧ registry.get? x.name = some g

/-- The keys that begin at the fragments that are spread have a property. -/
def RootsHave (P : SelectionKey → Prop) (registry : Registry) (xs : List PlacedSpread) : Prop :=
  ∀ g, registry.Spreads xs g → P (.ofRoot .fragment (capitalize g.name))

section Lowering

variable {P : SelectionKey → Prop} {pass : Pass} {registry : Registry}

theorem RootsHave.mono {xs ys : List PlacedSpread} (h : RootsHave P registry xs)
    (hs : ∀ y ∈ ys, y ∈ xs) : RootsHave P registry ys := by
  rintro g ⟨x, hx, hg⟩
  exact h g ⟨x, hx.mono hs, hg⟩

/-- What is in an entered fragment is reached: its spreads are among those of the
selections, or a spread among these names the fragment that they stand in. -/
theorem spreads_enter {s : Selected} {f : SelectedFragment} (hf : f ∈ s.fragments) {type : String} {e : EnteredFragment}
    (he : enter registry s type f = .ok e) :
    ((∀ x ∈ e.selected.spreads, x ∈ s.spreads) ∧ e.name = none) ∨
      ∃ x ∈ s.spreads, ∃ d, registry.get? x.name = some d ∧ e.selected.spreads = d.spreads ∧
        e.name = some d.name := by
  rcases enter_cases hf he with ⟨condition, selections, hx, rfl⟩ | ⟨name, d, hx, hd, -, rfl⟩
  · exact .inl ⟨fun y hy => mem_spreadsIn.2 ⟨_, hx, by rwa [Selection.spreads]⟩, rfl⟩
  · have hmem : ⟨.executable ⟨s.file, f.position⟩, name⟩ ∈ s.spreads :=
      mem_spreadsIn.2 ⟨_, hx, List.mem_singleton_self _⟩
    exact .inr ⟨_, hmem, d, hd, rfl, rfl⟩

/-- Nothing else is spread in an entered fragment, and it is itself spread if it has a name. -/
theorem RootsHave.enter {s : Selected} {type : String} {f : SelectedFragment} {e : EnteredFragment}
    (h : RootsHave P registry s.spreads) (hf : f ∈ s.fragments)
    (he : enter registry s type f = .ok e) :
    RootsHave P registry e.selected.spreads ∧
      ∀ name, e.name = some name → P (.ofRoot .fragment (capitalize name)) := by
  rcases spreads_enter hf he with ⟨hs, hn⟩ | ⟨x, hx, d, hd, hs, hn⟩
  · exact ⟨h.mono hs, fun name he => by rw [hn] at he; cases he⟩
  · constructor
    · rw [hs]
      rintro g ⟨y, hy, hg⟩
      exact h g ⟨y, .inside hx hd hy, hg⟩
    · intro name he
      obtain rfl : d.name = name := Option.some.inj (hn.symm.trans he)
      exact h d ⟨x, .here hx, hd⟩

/-- The fields of an entered fragment are keyed if those around it and its own are. -/
theorem keyed_entered (pass : Pass) (typeCondition : String) (hp : KeptByExtension P)
    {around : Enclosing} {own : List Field} (hk : Keyed P around.keys)
    (ha : ∀ f ∈ around.fields, f.Everywhere (Field.Keyed P))
    (ho : ∀ f ∈ own, f.Everywhere (Field.Keyed P)) :
    ∀ f ∈ mergeFields pass
      (inheritFields around.fields (rebasedKeys around.keys typeCondition) ++ own),
      f.Everywhere (Field.Keyed P) := by
  refine keeps_keyed pass hp _ (List.forall_mem_append.2 ⟨?_, ho⟩)
  exact forall_fields_inherit (keptThrough_keyed hp hk.all).everywhere ha

mutual

/-- **The keys of lowered selections** have every property that the keys of the place and
those of spread fragments have, if further steps keep it. -/
theorem LowersPlace.keyed (hp : KeptByExtension P) {place : Place} {s : Selected}
    {fields : List Field} {fragments : List Fragment} :
    LowersPlace pass registry place s fields fragments → Keyed P place.keys →
      RootsHave P registry s.spreads → KeyedBelow P fields fragments
  | .intro hf hg, hk, hr => by
    have hfields := LowersFields.keyed hp hf (fun g hg x hx => ((mem_members_iff hg).1 hx).1) hk hr
    have hinterfaces := LowersFragments.keyed hp hg (fun _ h => h) hk hfields hr
    have hmerged := keyed_mergeInterfaces (mergeFields pass) fun i hi => (hinterfaces i hi).1
    have hbelow := forall_fields_mergeInterfaces (keeps_keyed pass hp) fun i hi =>
      (hinterfaces i hi).2
    constructor
    · exact keyed_assemble (place.site pass fields) hk hmerged
    · intro c hc
      rcases mem_subfieldsOf.1 hc with hc | ⟨g, hg', hc⟩
      · exact hfields c hc
      · exact forall_fields_assemble (place.site pass fields) (keeps_keyed pass hp) hfields hbelow
          g hg' c hc

theorem LowersFields.keyed (hp : KeptByExtension P) {type : String}
    {keys : OrderedSet SelectionKey} {s : Selected} {gs : List (Group String SelectedField)}
    {fields : List Field} :
    LowersFields pass registry type keys s gs fields →
      (∀ g ∈ gs, ∀ f ∈ g.members, f ∈ s.fields) → Keyed P keys →
      RootsHave P registry s.spreads → ∀ f ∈ fields, f.Everywhere (Field.Keyed P)
  | .nil, _, _, _ => by simp
  | .excluded _ hr, hs, hk, hx => LowersFields.keyed hp hr (List.forall_mem_cons.1 hs).2 hk hx
  | .field (g := g) hi _ _ hb hr, hs, hk, hx => by
    obtain ⟨hg, hgs⟩ := List.forall_mem_cons.1 hs
    have hsub := spreads_below fun f hf => hg f (included_subset hi f hf)
    have hchild := hk.child hp (capitalize g.key)
    have hbelow := LowersPlace.keyed hp hb hchild (hx.mono hsub)
    intro f hf
    rcases List.mem_cons.1 hf with rfl | hf
    · exact Field.everywhere_iff.2 ⟨⟨hchild, hbelow.fragment⟩, hbelow.field⟩
    · exact LowersFields.keyed hp hr hgs hk hx f hf

theorem LowersFragments.keyed (hp : KeptByExtension P) {around : Enclosing} {s : Selected}
    {fs : List SelectedFragment} {is : List Interface} :
    LowersFragments pass registry around s fs is → (∀ f ∈ fs, f ∈ s.fragments) →
      Keyed P around.keys → (∀ f ∈ around.fields, f.Everywhere (Field.Keyed P)) →
      RootsHave P registry s.spreads →
      ∀ i ∈ is, Keyed P i.keys ∧ ∀ f ∈ i.fields, f.Everywhere (Field.Keyed P)
  | .nil, _, _, _, _ => by simp
  | .excluded _ hr, hs, hk, ha, hx =>
    LowersFragments.keyed hp hr (List.forall_mem_cons.1 hs).2 hk ha hx
  | .entered (e := e) _ he _ ho hn hr, hs, hk, ha, hx => by
    obtain ⟨hf, hfs⟩ := List.forall_mem_cons.1 hs
    obtain ⟨hinside, hname⟩ := hx.enter hf he
    have hkeys := hk.fragmentKeys hp hname
    have hown := LowersFields.keyed hp ho (fun g hg x hx => ((mem_members_iff hg).1 hx).1) hkeys
      hinside
    have hentered := keyed_entered pass e.typeCondition hp hk ha hown
    -- the fragment's own interface encloses those in it
    intro i hi
    rcases List.mem_append.1 hi with hi | hi
    · rcases List.mem_cons.1 hi with rfl | hi
      · exact ⟨hkeys, hentered⟩
      · exact LowersFragments.keyed hp hn (fun _ h => h) hkeys hentered hinside i hi
    · exact LowersFragments.keyed hp hr hfs hk ha hx i hi

end

end Lowering

/-! ## Definitions -/

/-- **A key that may stand in the tree of an operation**: it is rooted at the data field of
the operation, or at a fragment that is spread. -/
def SelectionKey.RootedInOperation (registry : Registry) (xs : List PlacedSpread) (name : String)
    (k : SelectionKey) : Prop :=
  (k.scope = .query ∧ ∃ rest, k.segments = name :: "Data" :: rest) ∨
    (k.scope = .fragment ∧ ∃ g, registry.Spreads xs g ∧ k.root = capitalize g.name)

/-- **A key that may stand in a selection set of a fragment**: its root is one of those
given, or that of a fragment that is spread. -/
def SelectionKey.RootedInFragment (registry : Registry) (xs : List PlacedSpread)
    (roots : List String) (k : SelectionKey) : Prop :=
  k.scope = .fragment ∧ (k.root ∈ roots ∨ ∃ g, registry.Spreads xs g ∧ k.root = capitalize g.name)

theorem keptByExtension_operation (registry : Registry) (xs : List PlacedSpread) (name : String) :
    KeptByExtension (SelectionKey.RootedInOperation registry xs name) := by
  rintro k steps (⟨hs, rest, hk⟩ | hk)
  · obtain ⟨hroot, hpath⟩ := List.cons.inj hk
    refine .inl ⟨hs, rest ++ steps, ?_⟩
    rw [SelectionKey.segments, hroot, hpath, List.cons_append]
  · exact .inr hk

theorem keptByExtension_fragment (registry : Registry) (xs : List PlacedSpread)
    (roots : List String) :
    KeptByExtension (SelectionKey.RootedInFragment registry xs roots) := fun _ _ h => h

theorem SelectionSet.Keyed.withDerivedKeys {P Q : SelectionKey → Prop}
    {derive : SelectionKey → List SelectionKey} {s : SelectionSet} (h : s.Keyed P)
    (hpq : ∀ k, P k → Q k) (hd : ∀ k, P k → ∀ l ∈ derive k, Q l) :
    (s.withDerivedKeys derive).Keyed Q where
  own := h.own.derive hpq hd
  below := by
    rw [fields_withDerivedKeys, fragments_withDerivedKeys]
    exact h.below.withDerivedKeys hpq hd

/-- A text is part of those that it is put together with. -/
theorem infix_intercalate {text : String} {texts : List String} (h : text ∈ texts) :
    text.toList <:+: (String.intercalate "\n" texts).toList := by
  induction texts with
  | nil => cases h
  | cons t ts ih =>
    cases ts with
    | nil =>
      obtain rfl := List.mem_singleton.1 h
      have he : String.intercalate "\n" [text] = text := String.intercalate_singleton
      exact he.symm ▸ List.infix_rfl
    | cons u us =>
      rw [String.intercalate_cons_cons, String.toList_append, String.toList_append]
      rcases List.mem_cons.1 h with rfl | h
      · exact ⟨[], _, by rw [List.nil_append, List.append_assoc]⟩
      · exact (ih h).trans (List.suffix_append _ _).isInfix

namespace Builder

variable {b : Builder} {d : Document} {o : OperationDefinition} {op : Operation}

/-- The tree of an operation starts from one key, which names the operation. -/
theorem data_keyed (h : b.buildOperation d o = .ok op) :
    op.data.Everywhere (Field.Keyed
      (SelectionKey.RootedInOperation b.registry (spreadsIn d.file o.selections) op.name)) := by
  obtain ⟨declared, rootType, fields, fragments, -, -, hl, -, hname, -, he⟩ :=
    parts_of_buildOperation h
  have hdata : capitalize "data" = "Data" := by decide
  have hroot : Keyed
      (SelectionKey.RootedInOperation b.registry (spreadsIn d.file o.selections) op.name)
      (b.operationPlace o declared rootType).keys := by
    refine .singleton (.inl ⟨rfl, [], ?_⟩)
    rw [hname, hdata]
    rfl
  have hbelow := (lowersPlace_of_ok hl).keyed (keptByExtension_operation _ _ _) hroot
    fun g hg => .inr ⟨rfl, g, hg, rfl⟩
  rw [he, Field.everywhere_iff]
  exact ⟨⟨hroot, hbelow.fragment⟩, hbelow.field⟩

/-- What is spread is used, so its text is part of that of the operation. -/
theorem text_of_spread (hl : b.registry.Loaded) (h : b.buildOperation d o = .ok op)
    {g : RegisteredFragment} (hg : b.registry.Spreads (spreadsIn d.file o.selections) g) :
    g.sourceText.toList <:+: op.sourceText.toList := by
  obtain ⟨x, hx, hget⟩ := hg
  obtain ⟨declared, ht⟩ := text_of_buildOperation h
  obtain ⟨own, used, -, hused, htext⟩ := operationText_eq_ok hl ht
  obtain ⟨walk, hw⟩ := DepthFirst.exists b.registry [] (spreadsIn d.file o.selections)
  have hname := Registry.name_of_get? hget
  have hin : g ∈ used := by
    rw [usedFragments_eq_resolve hw] at hused
    exact ((Registry.names_of_resolve hused).2 g).2
      ⟨hname.symm ▸ hget, x, hw.mem_iff.2 hx, hname.symm⟩
  rw [htext]
  exact infix_intercalate (List.mem_cons_of_mem _ (List.mem_map_of_mem hin))

/-- Both selection sets of a fragment start from the key of the fragment. -/
theorem lowered_keyed {pass : Pass} {f : RegisteredFragment} {set : SelectionSet}
    (h : lowerSelectionSet pass b.registry (fragmentPlace f) (Selected.ofDefinition f) = .ok set) :
    set.Keyed (SelectionKey.RootedInFragment b.registry f.spreads [capitalize f.name]) := by
  obtain ⟨fields, fragments, hl, rfl⟩ := lowerSelectionSet_eq_ok.1 h
  have hroot : Keyed
      (SelectionKey.RootedInFragment b.registry f.spreads [capitalize f.name])
      (fragmentPlace f).keys :=
    .singleton ⟨rfl, .inl (List.mem_singleton_self _)⟩
  refine ⟨hroot, (lowersPlace_of_ok hl).keyed (keptByExtension_fragment _ _ _) hroot ?_⟩
  exact fun g hg => ⟨rfl, .inr ⟨g, hg, rfl⟩⟩

/-- The default implementation adds a root. -/
theorem patched_keyed {registry : Registry} {xs : List PlacedSpread} {s : SelectionSet}
    {root implementation : String}
    (h : s.Keyed (SelectionKey.RootedInFragment registry xs [root])) :
    (patchSelectionSet s root implementation).Keyed
      (SelectionKey.RootedInFragment registry xs [root, implementation]) := by
  refine h.withDerivedKeys (fun k hk => ?_) fun k hk l hl => ?_
  · refine ⟨hk.1, hk.2.imp_left fun hr => ?_⟩
    exact List.mem_cons.2 (.inl (List.mem_singleton.1 hr))
  · rw [implementationKeys] at hl
    split at hl
    · obtain rfl := List.mem_singleton.1 hl
      exact ⟨hk.1, .inl (List.mem_cons_of_mem _ (List.mem_singleton_self _))⟩
    · cases hl

end Builder

/-- **Every key in a built tree has a legitimate root**, and every field and every fragment
at any depth has a key. In the tree of an operation, a key starts with the name of the
operation and its data field, or with the name of a fragment that is spread, whose text is
part of that of the operation. In the selection sets of a fragment it starts with the name
of the fragment, with that of a fragment that is spread in it, or, in the default one only,
with that of its default implementation. -/
theorem keys_rooted (b : Builder) :
    (∀ (d : Document) (o : OperationDefinition) (op : Operation), b.buildOperation d o = .ok op →
      op.data.Everywhere (Field.Keyed
        (SelectionKey.RootedInOperation b.registry (spreadsIn d.file o.selections) op.name)) ∧
      (b.registry.Loaded → ∀ g, b.registry.Spreads (spreadsIn d.file o.selections) g →
        g.sourceText.toList <:+: op.sourceText.toList)) ∧
    (∀ (f : RegisteredFragment) (nf : NamedFragment), b.buildNamedFragment f = .ok nf →
      nf.selectionSet.Keyed
        (SelectionKey.RootedInFragment b.registry f.spreads [capitalize f.name]) ∧
      nf.defaultSelectionSet.Keyed
        (SelectionKey.RootedInFragment b.registry f.spreads
          [capitalize f.name, nf.defaultImplementationName])) := by
  constructor
  · intro d o op h
    exact ⟨Builder.data_keyed h, fun hl g hg => Builder.text_of_spread hl h hg⟩
  · intro f nf h
    obtain ⟨set, default, hs, hd, hname, -, he, hp⟩ := Builder.sets_of_buildNamedFragment h
    rw [he, hp, hname]
    exact ⟨Builder.lowered_keyed hs, Builder.patched_keyed (Builder.lowered_keyed hd)⟩

/-- The sample that spreads a fragment is built, so this holds of it. -/
theorem sample_keys_rooted :
    (∃ op, Sample.spreadingBuilder.buildOperation Sample.spreadingDocument
        Sample.spreadingOperation = .ok op ∧
      op.data.Everywhere (Field.Keyed
        (SelectionKey.RootedInOperation Sample.spreadingBuilder.registry
          (spreadsIn none Sample.spreadingOperation.selections) op.name)) ∧
      "fragment F on A { x }".toList <:+: op.sourceText.toList) ∧
    (∃ nf, Sample.builder.buildNamedFragment Sample.fragment = .ok nf ∧
      nf.selectionSet.Keyed
        (SelectionKey.RootedInFragment Sample.registry Sample.fragment.spreads ["F"])) := by
  obtain ⟨op, hop, -⟩ := Except.exists_of_any (p := fun _ => True)
    (x := Sample.spreadingBuilder.buildOperation Sample.spreadingDocument
      Sample.spreadingOperation) (by decide +kernel)
  obtain ⟨nf, hnf⟩ := Sample.exists_namedFragment
  obtain ⟨hkeyed, htext⟩ := (keys_rooted Sample.spreadingBuilder).1 _ _ op hop
  obtain ⟨hset, -⟩ := (keys_rooted Sample.builder).2 _ nf hnf
  refine ⟨⟨op, hop, hkeyed, ?_⟩, nf, hnf, hset⟩
  have hl : Sample.spreadingBuilder.registry.Loaded := .document _ .empty
  have hget : (Sample.spreadingBuilder.registry.get? "F").map RegisteredFragment.sourceText =
      some "fragment F on A { x }" := by decide +kernel
  obtain ⟨g, hg, hsource⟩ := Option.map_eq_some_iff.1 hget
  have hmem : ⟨.executable ⟨none, ⟨1, 1⟩⟩, "F"⟩ ∈
      spreadsIn none Sample.spreadingOperation.selections := List.mem_cons_self
  rw [← hsource]
  exact htext hl g ⟨_, .here hmem, hg⟩

end SelectionModel
