import Mathlib.Data.List.Forall2
import SelectionModel.Proofs.Steps
import SelectionModel.Proofs.UsedFragments.Text

/-!
# Registering fragments

A registry is put together by calls, each of which offers it a fragment or those of a
document. A call stops at the first fragment that it cannot register, and what it has
registered before stays. So a registry only ever grows at its end.

* `take_eq_ok`, `take_eq_error`: what becomes of one offered fragment.
* `call_eq_none`, `call_eq_some`: **a call registers all that it offers, or what stands
  before the first refused fragment.**
* `exists_batches`: what some calls register, call by call.
* `registered_fragments_kept`: **a registry never loses or replaces a fragment.**
-/

namespace SelectionModel

/-! ## Offers -/

/-- A fragment that is to be registered, with its text if that is found. -/
structure FragmentOffer where
  definition : FragmentDefinition
  file : Option String
  text? : Option String

namespace FragmentOffer

def name (o : FragmentOffer) : String := o.definition.name

def location (o : FragmentOffer) : SourceLocation := .executable ⟨o.file, o.definition.position⟩

/-- What is registered of an offer. -/
def registered? (o : FragmentOffer) : Option RegisteredFragment :=
  o.text?.map fun text => ⟨o.definition, o.file, text⟩

variable {o : FragmentOffer} {f : RegisteredFragment}

theorem registered?_eq_none : o.registered? = none ↔ o.text? = none := Option.map_eq_none_iff

/-- What is registered of an offer bears its name and stands at its place. -/
theorem name_of_registered? (h : o.registered? = some f) :
    f.name = o.name ∧ f.location = o.location := by
  obtain ⟨text, -, rfl⟩ := Option.map_eq_some_iff.1 h
  exact ⟨rfl, rfl⟩

end FragmentOffer

/-- The offer of a fragment of a document. -/
def Document.offer (d : Document) (f : FragmentDefinition) : FragmentOffer :=
  ⟨f, d.file, d.definitionSource? f.position⟩

/-- The offer of a fragment that has its text already. -/
def RegisteredFragment.offer (f : RegisteredFragment) : FragmentOffer :=
  ⟨f.definition, f.file, some f.sourceText⟩

namespace Registry

/-! ## Calls -/

/-- A call on a registry that is being put together. -/
inductive Call where
  | document (d : Document)
  | fragment (f : RegisteredFragment)

/-- The fragments that a call offers, in order. -/
def Call.offers : Call → List FragmentOffer
  | .document d => d.fragments.map d.offer
  | .fragment f => [f.offer]

/-- Does what is called. A single fragment that cannot be added leaves the registry as
it is. -/
def call (r : Registry) : Call → Registry × Option RegistryError
  | .document d => r.addDocument d
  | .fragment f =>
    match r.add f with
    | .ok s => (s, none)
    | .error e => (r, some e)

/-- **The registry that some calls put together**, whichever of them fail. -/
def built (calls : List Call) : Registry := calls.foldl (fun r c => (r.call c).1) empty

theorem built_append (calls more : List Call) :
    built (calls ++ more) = more.foldl (fun r c => (r.call c).1) (built calls) :=
  List.foldl_append

theorem built_concat (calls : List Call) (c : Call) :
    built (calls ++ [c]) = ((built calls).call c).1 := built_append calls [c]

/-! ## Look-ups -/

section LookUp

variable {r s : Registry} {f : RegisteredFragment} {name : String}

/-- A registry is given by its fragments. -/
theorem eq_of_fragments (h : r.fragments = s.fragments) : r = s := by
  cases r
  cases s
  cases h
  rfl

/-- **A fragment is found under its own name**, and nothing else is. -/
theorem get?_eq_some : r.get? name = some f ↔ f ∈ r.fragments ∧ f.name = name := by
  constructor
  · intro h
    exact ⟨List.mem_of_find?_eq_some h, name_of_get? h⟩
  · rintro ⟨hf, rfl⟩
    cases h : r.get? f.name with
    | none => exact absurd (List.mem_map_of_mem hf) (get?_eq_none.1 h)
    | some g =>
      have hg : g ∈ r.fragments := List.mem_of_find?_eq_some h
      rw [List.inj_on_of_nodup_map r.nodup hg hf (name_of_get? h)]

theorem add_eq_ok :
    r.add f = .ok s ↔ r.get? f.name = none ∧ s.fragments = r.fragments ++ [f] := by
  constructor
  · intro h
    refine ⟨?_, fragments_of_add h⟩
    rw [add] at h
    split at h
    · cases h
    · assumption
  · rintro ⟨hnew, hs⟩
    rw [add]
    split
    · simp_all
    · exact congrArg Except.ok (eq_of_fragments hs.symm)

theorem add_eq_error {e : RegistryError} :
    r.add f = .error e ↔
      ∃ known, r.get? f.name = some known ∧ e = .duplicate f.name known.location f.location := by
  rw [add]
  split
  next known hk => simp [hk, eq_comm]
  next hnew => simp [hnew]

end LookUp

/-! ## One offer -/

section Offer

variable {r s : Registry} {o : FragmentOffer}

/-- Registers an offered fragment. -/
def take (r : Registry) (o : FragmentOffer) : Except RegistryError Registry :=
  match o.registered? with
  | none => .error (.sourceTextUnavailable o.name o.location)
  | some f => r.add f

theorem take_offer (r : Registry) (f : RegisteredFragment) : r.take f.offer = r.add f := rfl

theorem take_eq_ok :
    r.take o = .ok s ↔
      ∃ f, o.registered? = some f ∧ r.get? f.name = none ∧ s.fragments = r.fragments ++ [f] := by
  rw [take]
  cases o.registered? with
  | none => simp
  | some f => simp [add_eq_ok]

/-- **Why an offer is refused**: its text is not found, or it is and a registered fragment
has the name. -/
inductive Refuses (r : Registry) (o : FragmentOffer) : RegistryError → Prop where
  | text : o.text? = none → Refuses r o (.sourceTextUnavailable o.name o.location)
  | name {known : RegisteredFragment} : o.text? ≠ none → known ∈ r.fragments →
    known.name = o.name → Refuses r o (.duplicate o.name known.location o.location)

theorem refuses_duplicate {name : String} {first second : SourceLocation} :
    r.Refuses o (.duplicate name first second) ↔ o.text? ≠ none ∧
      ∃ known ∈ r.fragments, known.name = o.name ∧
        name = o.name ∧ first = known.location ∧ second = o.location := by
  constructor
  · intro h
    cases h with
    | name htext hk hn => exact ⟨htext, _, hk, hn, rfl, rfl, rfl⟩
  · rintro ⟨htext, known, hk, hn, rfl, rfl, rfl⟩
    exact .name htext hk hn

theorem take_eq_error {e : RegistryError} : r.take o = .error e ↔ r.Refuses o e := by
  rw [take]
  cases hf : o.registered? with
  | none =>
    have htext := FragmentOffer.registered?_eq_none.1 hf
    constructor
    · intro h
      obtain rfl := Except.error.inj h
      exact .text htext
    · intro h
      cases h with
      | text => rfl
      | name hsome => exact absurd htext hsome
  | some f =>
    have htext : o.text? ≠ none := fun h => by simp [FragmentOffer.registered?, h] at hf
    obtain ⟨hname, hlocation⟩ := FragmentOffer.name_of_registered? hf
    simp only [add_eq_error, hname, hlocation, get?_eq_some]
    constructor
    · rintro ⟨known, ⟨hk, hn⟩, rfl⟩
      exact .name htext hk hn
    · intro h
      cases h with
      | text hnone => exact absurd hnone htext
      | name _ hk hn => exact ⟨_, ⟨hk, hn⟩, rfl⟩

end Offer

/-! ## Many offers -/

section Offers

variable {r s : Registry} {offers : List FragmentOffer} {fs : List RegisteredFragment}
  {e : RegistryError}

/-- **A registry takes all of some offers**: their texts are found, and no name stands
twice among them and what is registered. -/
structure Takes (r : Registry) (offers : List FragmentOffer) (fs : List RegisteredFragment) :
    Prop where
  entries : offers.map FragmentOffer.registered? = fs.map some
  nodup : ((r.fragments ++ fs).map RegisteredFragment.name).Nodup

theorem takes_nil : r.Takes [] fs ↔ fs = [] := by
  constructor
  · intro h
    simpa using h.entries.symm
  · rintro rfl
    exact ⟨rfl, by simpa using r.nodup⟩

/-- A registry takes some offers if it takes the first and then, with that, the others. -/
theorem takes_cons {o : FragmentOffer} :
    r.Takes (o :: offers) fs ↔
      ∃ m f gs, fs = f :: gs ∧ r.take o = .ok m ∧ m.fragments = r.fragments ++ [f] ∧
        m.Takes offers gs := by
  constructor
  · rintro ⟨hentries, hnodup⟩
    obtain ⟨f, gs, rfl, hf, hgs⟩ : ∃ f gs, fs = f :: gs ∧ o.registered? = some f ∧
        offers.map FragmentOffer.registered? = gs.map some := by
      cases fs with
      | nil => cases hentries
      | cons f gs => exact ⟨f, gs, rfl, List.cons.inj hentries⟩
    have hsplit : r.fragments ++ f :: gs = r.fragments ++ [f] ++ gs := by simp
    rw [hsplit, List.map_append] at hnodup
    have hm := hnodup.of_append_left
    refine ⟨⟨r.fragments ++ [f], hm⟩, f, gs, rfl, take_eq_ok.2 ⟨f, hf, ?_, rfl⟩, rfl, hgs, ?_⟩
    · rw [get?_eq_none]
      rw [List.map_append] at hm
      intro hmem
      exact (List.disjoint_of_nodup_append hm) hmem List.mem_cons_self
    · rw [List.map_append]
      exact hnodup
  · rintro ⟨m, f, gs, rfl, hm, hfragments, hentries, hnodup⟩
    obtain ⟨f', hf', -, hf⟩ := take_eq_ok.1 hm
    obtain rfl : f = f' := by simpa [hf] using hfragments.symm
    refine ⟨?_, ?_⟩
    · rw [List.map_cons, List.map_cons, hf', hentries]
    · rw [hfragments] at hnodup
      simpa using hnodup

/-- **Some offers are registered one after the other if the registry takes them all.** -/
theorem foldlM_take_eq_ok :
    offers.foldlM take r = .ok s ↔ ∃ fs, r.Takes offers fs ∧ s.fragments = r.fragments ++ fs := by
  induction offers generalizing r with
  | nil =>
    simp only [takes_nil, exists_eq_left, List.append_nil]
    constructor
    · intro h
      rw [Except.ok.inj h]
    · intro h
      exact congrArg Except.ok (eq_of_fragments h.symm)
  | cons o offers ih =>
    simp only [Except.foldlM_cons_eq_ok, ih, takes_cons]
    constructor
    · rintro ⟨m, hm, gs, hgs, hs⟩
      obtain ⟨f, -, -, hf⟩ := take_eq_ok.1 hm
      refine ⟨f :: gs, ⟨m, f, gs, rfl, hm, hf, hgs⟩, ?_⟩
      rw [hs, hf, List.append_assoc]
      rfl
    · rintro ⟨_, ⟨m, f, gs, rfl, hm, hf, hgs⟩, hs⟩
      refine ⟨m, hm, gs, hgs, ?_⟩
      rw [hs, hf, List.append_assoc]
      rfl

/-- A document is gone through offer by offer. -/
theorem addFragments_cons (d : Document) (f : FragmentDefinition) (fs : List FragmentDefinition)
    (r : Registry) :
    addFragments d (f :: fs) r =
      match r.take (d.offer f) with
      | .ok s => addFragments d fs s
      | .error e => (r, some e) := by
  have hentry : (d.offer f).registered? =
      (d.definitionSource? f.position).map fun text => ⟨f, d.file, text⟩ := rfl
  rw [addFragments, take, hentry]
  cases d.definitionSource? f.position with
  | none => rfl
  | some text => cases hadd : r.add ⟨f, d.file, text⟩ <;> simp [hadd]

theorem addFragments_eq_none {d : Document} {ds : List FragmentDefinition} :
    addFragments d ds r = (s, none) ↔ (ds.map d.offer).foldlM take r = .ok s := by
  induction ds generalizing r with
  | nil => simp [addFragments, pure, Except.pure]
  | cons f ds ih =>
    rw [addFragments_cons, List.map_cons, Except.foldlM_cons_eq_ok]
    cases r.take (d.offer f) with
    | error e => simp
    | ok m => simpa using ih

theorem addFragments_eq_some {d : Document} {ds : List FragmentDefinition} :
    addFragments d ds r = (s, some e) ↔ ∃ before o after,
      ds.map d.offer = before ++ o :: after ∧ before.foldlM take r = .ok s ∧
        s.take o = .error e := by
  induction ds generalizing r with
  | nil => simp [addFragments]
  | cons f ds ih =>
    rw [addFragments_cons, List.map_cons]
    constructor
    · intro h
      cases hf : r.take (d.offer f) with
      | error e' =>
        rw [hf] at h
        obtain ⟨rfl, he⟩ := Prod.mk.inj h
        obtain rfl := Option.some.inj he
        exact ⟨[], d.offer f, ds.map d.offer, rfl, rfl, hf⟩
      | ok m =>
        rw [hf] at h
        obtain ⟨before, o, after, hsplit, hbefore, ho⟩ := ih.1 h
        refine ⟨d.offer f :: before, o, after, congrArg (d.offer f :: ·) hsplit, ?_, ho⟩
        exact Except.foldlM_cons_eq_ok.2 ⟨m, hf, hbefore⟩
    · rintro ⟨before, o, after, hsplit, hbefore, ho⟩
      cases before with
      | nil =>
        obtain ⟨rfl, -⟩ := List.cons.inj hsplit
        obtain rfl := Except.ok.inj hbefore
        rw [ho]
      | cons o' before =>
        obtain ⟨rfl, htail⟩ := List.cons.inj hsplit
        obtain ⟨m, hm, hbefore⟩ := Except.foldlM_cons_eq_ok.1 hbefore
        rw [hm]
        exact ih.2 ⟨before, o, after, htail, hbefore, ho⟩

end Offers

/-! ## One call -/

section Call

variable {r s : Registry} {c : Call} {e : RegistryError}

/-- **A call that succeeds** registers all that it offers. -/
theorem call_eq_none :
    r.call c = (s, none) ↔ ∃ fs, r.Takes c.offers fs ∧ s.fragments = r.fragments ++ fs := by
  rw [← foldlM_take_eq_ok]
  cases c with
  | document d => exact addFragments_eq_none
  | fragment f =>
    rw [call, Call.offers, List.foldlM_cons, take_offer]
    cases r.add f with
    | error e => simp [bind, Except.bind]
    | ok m => simp [bind, Except.bind, pure, Except.pure]

/-- **A call that fails** registers what it offers before the first refused fragment. -/
theorem call_eq_some :
    r.call c = (s, some e) ↔ ∃ before o after fs, c.offers = before ++ o :: after ∧
      r.Takes before fs ∧ s.fragments = r.fragments ++ fs ∧ s.Refuses o e := by
  have hstep : r.call c = (s, some e) ↔ ∃ before o after, c.offers = before ++ o :: after ∧
      before.foldlM take r = .ok s ∧ s.take o = .error e := by
    cases c with
    | document d => exact addFragments_eq_some
    | fragment f =>
      -- the only offer has none before it
      have hsplit : ∀ before o after, [f.offer] = before ++ o :: after ↔
          before = [] ∧ o = f.offer ∧ after = [] := by
        intro before o after
        rw [eq_comm, List.append_eq_singleton_iff]
        simp
      simp only [call, Call.offers, hsplit]
      cases hf : r.add f with
      | error e' =>
        simp only [Prod.mk.injEq, Option.some.injEq]
        constructor
        · rintro ⟨rfl, rfl⟩
          exact ⟨[], f.offer, [], ⟨rfl, rfl, rfl⟩, rfl, hf⟩
        · rintro ⟨_, _, _, ⟨rfl, rfl, rfl⟩, hr, hs⟩
          obtain rfl := Except.ok.inj hr
          exact ⟨rfl, Except.error.inj (hf.symm.trans hs)⟩
      | ok m =>
        simp only [Prod.mk.injEq, reduceCtorEq, and_false, false_iff]
        rintro ⟨_, _, _, ⟨rfl, rfl, rfl⟩, hr, hs⟩
        obtain rfl := Except.ok.inj hr
        cases hf.symm.trans hs
  rw [hstep]
  simp only [foldlM_take_eq_ok, take_eq_error]
  constructor
  · rintro ⟨before, o, after, hsplit, ⟨fs, hfs, hs⟩, ho⟩
    exact ⟨before, o, after, fs, hsplit, hfs, hs, ho⟩
  · rintro ⟨before, o, after, fs, hsplit, hfs, hs, ho⟩
    exact ⟨before, o, after, hsplit, ⟨fs, hfs, hs⟩, ho⟩

/-- **One call adds at the end**: the entries of its first offers, in order. -/
theorem exists_batch (r : Registry) (c : Call) :
    ∃ fs, fs.map some <+: c.offers.map FragmentOffer.registered? ∧
      (r.call c).1.fragments = r.fragments ++ fs := by
  cases h : r.call c with
  | mk s e =>
    cases e with
    | none =>
      obtain ⟨fs, hfs, hs⟩ := call_eq_none.1 h
      exact ⟨fs, hfs.entries ▸ List.prefix_rfl, hs⟩
    | some e =>
      obtain ⟨before, o, after, fs, hsplit, hfs, hs, -⟩ := call_eq_some.1 h
      refine ⟨fs, ?_, hs⟩
      rw [hsplit, List.map_append, hfs.entries]
      exact List.prefix_append _ _

end Call

/-! ## Many calls -/

section Calls

/-- **What some calls register, call by call.** -/
theorem exists_batches (calls : List Call) :
    ∃ batches : List (List RegisteredFragment),
      List.Forall₂ (fun c fs => fs.map some <+: c.offers.map FragmentOffer.registered?)
        calls batches ∧
      ∀ n, (built (calls.take n)).fragments = (batches.take n).flatten := by
  induction calls using List.reverseRecOn with
  | nil => exact ⟨[], .nil, fun n => by simp [built, empty]⟩
  | append_singleton calls c ih =>
    obtain ⟨batches, hall, htake⟩ := ih
    obtain ⟨fs, hfs, hs⟩ := exists_batch (built calls) c
    have hlength : calls.length = batches.length := hall.length_eq
    refine ⟨batches ++ [fs], List.rel_append hall (.cons hfs .nil), fun n => ?_⟩
    by_cases hn : n ≤ calls.length
    · rw [List.take_append_of_le_length hn, List.take_append_of_le_length (hlength ▸ hn), htake]
    · have hall' : (built calls).fragments = batches.flatten := by
        have := htake calls.length
        rwa [List.take_length, hlength, List.take_length] at this
      rw [List.take_of_length_le (by simp; omega), List.take_of_length_le (by simp; omega),
        built_concat, hs, hall']
      simp

/-- **Later calls only add at the end.** -/
theorem fragments_built_append (calls more : List Call) :
    (built calls).fragments <+: (built (calls ++ more)).fragments := by
  induction more using List.reverseRecOn with
  | nil => simp
  | append_singleton more c ih =>
    obtain ⟨fs, -, hs⟩ := exists_batch (built (calls ++ more)) c
    rw [← List.append_assoc, built_concat, hs]
    exact ih.trans (List.prefix_append _ _)

end Calls

end Registry

/-- **A registry never loses or replaces a fragment.** Whatever is called on it, each
fragment is found under its own name and nothing else is; what is found stays found; the
fragments stand in the order in which the calls registered them. A call that succeeds
registers all that it offers. One that fails registers what stands before the first refused
fragment, and reports a duplicate if and only if the text of that fragment is found and its
name is taken, with the places of both. -/
theorem registered_fragments_kept (calls : List Registry.Call) :
    (∀ name f, (Registry.built calls).get? name = some f ↔
      f ∈ (Registry.built calls).fragments ∧ f.name = name) ∧
    (∀ more name f, (Registry.built calls).get? name = some f →
      (Registry.built (calls ++ more)).get? name = some f) ∧
    (∃ batches : List (List RegisteredFragment),
      List.Forall₂ (fun c fs => fs.map some <+: c.offers.map FragmentOffer.registered?)
        calls batches ∧
      ∀ n, (Registry.built (calls.take n)).fragments = (batches.take n).flatten) ∧
    (∀ c s, (Registry.built calls).call c = (s, none) ↔ ∃ fs,
      (Registry.built calls).Takes c.offers fs ∧
        s.fragments = (Registry.built calls).fragments ++ fs) ∧
    (∀ c s e, (Registry.built calls).call c = (s, some e) ↔ ∃ before o after fs,
      c.offers = before ++ o :: after ∧ (Registry.built calls).Takes before fs ∧
        s.fragments = (Registry.built calls).fragments ++ fs ∧ s.Refuses o e) ∧
    ∀ c name first second,
      ((Registry.built calls).call c).2 = some (.duplicate name first second) ↔
        ∃ before o after fs, c.offers = before ++ o :: after ∧
          (Registry.built calls).Takes before fs ∧ o.text? ≠ none ∧
          ∃ known ∈ (Registry.built calls).fragments ++ fs, known.name = o.name ∧
            name = o.name ∧ first = known.location ∧ second = o.location := by
  refine ⟨fun _ _ => Registry.get?_eq_some, ?_, Registry.exists_batches calls,
    fun _ _ => Registry.call_eq_none, fun _ _ _ => Registry.call_eq_some, ?_⟩
  · intro more name f h
    obtain ⟨hf, hn⟩ := Registry.get?_eq_some.1 h
    exact Registry.get?_eq_some.2 ⟨(Registry.fragments_built_append calls more).subset hf, hn⟩
  · intro c name first second
    constructor
    · intro h
      obtain ⟨before, o, after, fs, hsplit, hfs, hs, ho⟩ :=
        Registry.call_eq_some.1 (Prod.ext rfl h)
      rw [Registry.refuses_duplicate, hs] at ho
      exact ⟨before, o, after, fs, hsplit, hfs, ho⟩
    · rintro ⟨before, o, after, fs, hsplit, hfs, ho⟩
      -- the registry with the fragments before the refused one is where the call stops
      have hstop : (Registry.mk _ hfs.nodup).Refuses o (.duplicate name first second) :=
        Registry.refuses_duplicate.2 ho
      rw [Registry.call_eq_some.2 ⟨before, o, after, fs, hsplit, hfs, rfl, hstop⟩]

namespace Sample

/-- A document with two fragments of one name and a third. -/
def repeatedText : List Char := "fragment E on A { x }
fragment E on A { y }
fragment F on A { x }".toList

end Sample

/-- The call stops at the second fragment of the name. The first one stays, also when the
document is added once more. -/
theorem sample_fragments_kept :
    ∃ d f, Document.ofText none Sample.repeatedText = .ok d ∧
      f.sourceText = "fragment E on A { x }" ∧
      (Registry.built [.document d]).get? "E" = some f ∧
      (Registry.built ([.document d] ++ [.document d])).get? "E" = some f ∧
      (Registry.built [.document d]).get? "F" = none ∧
      (Registry.empty.call (.document d)).2 =
        some (.duplicate "E" (.executable ⟨none, ⟨1, 1⟩⟩) (.executable ⟨none, ⟨2, 1⟩⟩)) := by
  obtain ⟨d, hd, hfirst, hthird, herror⟩ := Except.exists_of_any
    (x := Document.ofText none Sample.repeatedText)
    (p := fun d => ((Registry.built [.document d]).get? "E").map RegisteredFragment.sourceText =
        some "fragment E on A { x }" ∧
      ((Registry.built [.document d]).get? "F").isNone ∧
      (Registry.empty.call (.document d)).2 =
        some (.duplicate "E" (.executable ⟨none, ⟨1, 1⟩⟩) (.executable ⟨none, ⟨2, 1⟩⟩)))
    (by decide +kernel)
  obtain ⟨f, hf, htext⟩ := Option.map_eq_some_iff.1 hfirst
  have hkept := (registered_fragments_kept [.document d]).2.1 [.document d] "E" f hf
  exact ⟨d, f, hd, htext, hf, hkept, Option.isNone_iff_eq_none.1 hthird, herror⟩

end SelectionModel
