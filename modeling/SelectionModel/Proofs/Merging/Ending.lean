import SelectionModel.Proofs.Merging.Depth
import SelectionModel.Proofs.Sample

/-!
# Merging ends

Merging some fields merges lists of fields below pairs of them, and so on. None of these
lists is a part of the fields, since what was merged above is merged again. But merging
never deepens a tree, so each list is nested less deep than the pair it is below.

* `PairMerges.depth_lt`: **what is merged below a pair is nested less deep** than the pair.
* `MergeCalls.depth_lt`: so is what is merged below some fields.
* `eq_mergeFields`: merging is the only function that goes down in this way.
* `merging_ends`: merging ends, and it never deepens a tree.
-/

namespace SelectionModel

variable {pass : Pass} {a b : Field} {fs gs : List Field}

/-- **What is merged below a pair is nested less deep** than the pair. -/
theorem PairMerges.depth_lt (h : PairMerges pass (mergeFields pass) a b fs) :
    fieldsDepth fs < max a.depth b.depth := by
  obtain ⟨n, hn⟩ : ∃ n, max a.depth b.depth = n + 1 :=
    Nat.exists_eq_add_one.2 (Nat.lt_of_lt_of_le a.depth_pos (Nat.le_max_left _ _))
  have ha : a.depth ≤ n + 1 := by omega
  have hb : b.depth ≤ n + 1 := by omega
  rw [Field.depth_le_succ] at ha hb
  have hall : ∀ f ∈ fs, f.depth ≤ n :=
    h.forall (keeps_depth n) ((keptByKeys_depth n).inherited _) ha hb
  have hle := fieldsDepth_le.2 hall
  omega

/-- **The lists that are merged below some fields**: below a field and those of its response
name that were merged before it. -/
def MergeCalls (pass : Pass) (fs gs : List Field) : Prop :=
  ∃ g ∈ groupBy Field.responseName fs, ∃ before next after, g.others = before ++ next :: after ∧
    PairMerges pass (mergeFields pass)
      (before.foldl (mergeFieldPair pass (mergeFields pass)) g.first) next gs

/-- What is merged below some fields is nested less deep than these. -/
theorem MergeCalls.depth_lt (h : MergeCalls pass fs gs) : fieldsDepth gs < fieldsDepth fs := by
  obtain ⟨g, hg, before, next, after, hothers, hcall⟩ := h
  have hmembers : ∀ f ∈ g.members, f.depth ≤ fieldsDepth fs := by
    intro f hf
    exact fieldsDepth_le.1 (Nat.le_refl _) f ((mem_members_iff hg).1 hf).1
  unfold Group.members at hmembers
  rw [hothers] at hmembers
  obtain ⟨hfirst, hothers⟩ := List.forall_mem_cons.1 hmembers
  obtain ⟨hbefore, hrest⟩ := List.forall_mem_append.1 hothers
  have hnext : next.depth ≤ fieldsDepth fs := (List.forall_mem_cons.1 hrest).1
  have hmerged : (before.foldl (mergeFieldPair pass (mergeFields pass)) g.first).depth ≤
      fieldsDepth fs := by
    apply foldl_of_forall (p := fun f : Field => f.depth ≤ fieldsDepth fs)
    · intro c d hc hd
      have hpair := depth_mergeFieldPair pass c d
      omega
    · exact List.forall_mem_cons.2 ⟨hfirst, hbefore⟩
  have hlt := hcall.depth_lt
  omega

/-- A chain of merges is no longer than the fields are deep. -/
theorem length_le_of_mergeCalls {chain : List (List Field)}
    (h : List.IsChain (MergeCalls pass) (fs :: chain)) : chain.length ≤ fieldsDepth fs := by
  induction chain generalizing fs with
  | nil => exact Nat.zero_le _
  | cons gs chain ih =>
    obtain ⟨hcall, hchain⟩ := List.isChain_cons_cons.1 h
    have hlt := hcall.depth_lt
    have hle := ih hchain
    rw [List.length_cons]
    omega

/-- **Merging is the only function that merges pair by pair** with itself below each pair. -/
theorem eq_mergeFields {merge : List Field → List Field}
    (h : ∀ fs, merge fs = (groupBy Field.responseName fs).map fun g =>
      g.others.foldl (mergeFieldPair pass merge) g.first) : merge = mergeFields pass := by
  funext fs
  induction hn : fieldsDepth fs using Nat.strongRecOn generalizing fs with
  | ind n ih =>
    rw [h, mergeFields_eq]
    apply List.map_congr_left
    intro g hg
    apply foldl_congr_prefix
    intro before next after hothers
    apply mergeFieldPair_eq_of_calls
    intro gs hgs
    have hcall : MergeCalls pass fs gs := ⟨g, hg, before, next, after, hothers, hgs⟩
    exact ih (fieldsDepth gs) (hn ▸ hcall.depth_lt) gs rfl

/-- **Merging some fields ends.** It merges pair by pair, and below the pairs it merges in the
same way. No chain of merges is longer than the fields are deep, and the merged fields are
not deeper. -/
structure MergingEnds (pass : Pass) (fs : List Field) : Prop where
  pairwise : mergeFields pass fs = (groupBy Field.responseName fs).map fun g =>
    g.others.foldl (mergeFieldPair pass (mergeFields pass)) g.first
  ends : ∀ chain, List.IsChain (MergeCalls pass) (fs :: chain) → chain.length ≤ fieldsDepth fs
  depth : fieldsDepth (mergeFields pass fs) ≤ fieldsDepth fs

/-- **Merging ends and never deepens a tree**, whatever the fields are. Below a pair it merges
fields that are nested less deep than the pair, and nothing else that matters; and no other
function merges in this way. -/
theorem merging_ends (pass : Pass) :
    (∀ fs, MergingEnds pass fs) ∧
      (∀ a b fs, PairMerges pass (mergeFields pass) a b fs →
        fieldsDepth fs < max a.depth b.depth) ∧
      (∀ (merge : List Field → List Field) (a b : Field),
        (∀ fs, PairMerges pass (mergeFields pass) a b fs → merge fs = mergeFields pass fs) →
        mergeFieldPair pass merge a b = mergeFieldPair pass (mergeFields pass) a b) ∧
      ∀ merge : List Field → List Field,
        (∀ fs, merge fs = (groupBy Field.responseName fs).map fun g =>
          g.others.foldl (mergeFieldPair pass merge) g.first) → merge = mergeFields pass := by
  refine ⟨?_, ?_, ?_, ?_⟩
  · intro fs
    constructor
    · exact mergeFields_eq fs
    · intro chain h
      exact length_le_of_mergeCalls h
    · exact depth_mergeFields fs
  · intro a b fs h
    exact h.depth_lt
  · intro merge a b h
    exact mergeFieldPair_eq_of_calls h
  · intro merge h
    exact eq_mergeFields h

namespace Sample

/-- The pass with implementations. -/
def fullPass : Pass := ⟨schema, true⟩

/-- A field without children. -/
def childless : Field :=
  Builder.dataField (.executable ⟨none, ⟨1, 1⟩⟩) "Query" (.singleton (.ofRoot .query "Q")) [] []

/-- A field with one child. -/
def parent : Field :=
  Builder.dataField (.executable ⟨none, ⟨1, 1⟩⟩) "Query" (.singleton (.ofRoot .query "Q"))
    [childless] []

theorem merging_parents : MergeCalls fullPass [parent, parent] [childless, childless] := by
  refine ⟨⟨"data", parent, [parent]⟩, ?_, [], parent, [], rfl, ?_⟩
  · exact List.mem_singleton.2 rfl
  · exact PairMerges.selections (a := parent) (b := parent)

/-- Merging to one level more than the fields are deep. -/
def boundedMerging (fs : List Field) : List Field := mergeFieldsAt fullPass (fieldsDepth fs + 1) fs

/-- Such a bound changes nothing, so this merges pair by pair as well. -/
theorem boundedMerging_eq (fs : List Field) :
    boundedMerging fs = (groupBy Field.responseName fs).map fun g =>
      g.others.foldl (mergeFieldPair fullPass boundedMerging) g.first := by
  have hsame : boundedMerging = mergeFields fullPass :=
    funext fun gs => mergeFieldsAt_of_le (Nat.le_succ (fieldsDepth gs))
  rw [hsame]
  exact mergeFields_eq fs

end Sample

/-- Two copies of a field with one child: a chain of merges below them has one list, in which
the bound of two levels is enough. The bounded merging goes down pair by pair, so it is
merging itself. -/
theorem sample_merging_ends :
    ([[Sample.childless, Sample.childless]].length ≤ fieldsDepth [Sample.parent, Sample.parent] ∧
      fieldsDepth (Sample.parent.fields ++ Sample.parent.fields) <
        max Sample.parent.depth Sample.parent.depth) ∧
    mergeFieldPair Sample.fullPass (mergeFieldsAt Sample.fullPass 2) Sample.parent Sample.parent =
      mergeFieldPair Sample.fullPass (mergeFields Sample.fullPass) Sample.parent Sample.parent ∧
    Sample.boundedMerging = mergeFields Sample.fullPass := by
  obtain ⟨hends, hcalls, hsame, hunique⟩ := merging_ends Sample.fullPass
  refine ⟨⟨?_, ?_⟩, ?_, ?_⟩
  · apply (hends [Sample.parent, Sample.parent]).ends
    exact List.isChain_cons_cons.2 ⟨Sample.merging_parents, List.IsChain.singleton _⟩
  · exact hcalls _ _ _ .selections
  · apply hsame
    intro fs h
    exact mergeFieldsAt_of_le (Nat.le_of_lt h.depth_lt)
  · exact hunique Sample.boundedMerging Sample.boundedMerging_eq

end SelectionModel
