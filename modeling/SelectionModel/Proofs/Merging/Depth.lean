import SelectionModel.Proofs.Merging.Calls

/-!
# Merging and depth

Merging never deepens a tree, so the depth of the fields bounds all merging below
them, and any greater bound gives the same result.

* `depth_mergeFieldsAt`: merged fields are nested as deep as the deepest at most.
* `mergeFieldsAt_of_le`: every bound that suffices gives what merging gives.
* `mergeFields_eq`, `keeps_everywhere`: merging without a bound, and what it keeps
  at every depth.
-/

namespace SelectionModel

variable {pass : Pass} {merge merge' : List Field → List Field}

theorem keptByKeys_depth (n : Nat) : KeptByKeys fun f => f.depth ≤ n :=
  fun derive _ h => Field.depth_withDerivedKeys_le derive h

/-- **Merging never deepens a tree.** -/
theorem depth_mergeFieldsAt (n : Nat) :
    Keeps (mergeFieldsAt pass n) fun f => f.depth ≤ n := by
  induction n with
  | zero => exact fun fs h => h
  | succ n ih =>
    intro fs h f hf
    rw [mergeFieldsAt] at hf
    obtain ⟨g, hg, rfl⟩ := List.mem_map.1 hf
    have hm : ∀ c ∈ g.members, c.depth ≤ n + 1 := fun c hc => h c ((mem_members_iff hg).1 hc).1
    refine foldl_of_forall (p := fun f : Field => f.depth ≤ n + 1) (fun a b ha hb => ?_) hm
    rw [Field.depth_le_succ] at ha hb ⊢
    exact forall_subfields_mergeFieldPair ih ((keptByKeys_depth n).inherited _) ha hb

/-- Merged fields are nested as deep as the deepest at most. -/
theorem depth_mergeFields (fs : List Field) : fieldsDepth (mergeFields pass fs) ≤ fieldsDepth fs :=
  fieldsDepth_le.2 (depth_mergeFieldsAt _ fs (fieldsDepth_le.1 (Nat.le_refl _)))

theorem keeps_depth (n : Nat) : Keeps (mergeFields pass) fun f => f.depth ≤ n := by
  intro fs h
  have hle := fieldsDepth_le.2 h
  exact fieldsDepth_le.1 (Nat.le_trans (depth_mergeFields fs) hle)

/-- A merged pair is nested as deep as the deeper field at most. -/
theorem depth_mergeFieldPair (pass : Pass) (a b : Field) :
    (mergeFieldPair pass (mergeFields pass) a b).depth ≤ max a.depth b.depth := by
  obtain ⟨n, hn⟩ : ∃ n, max a.depth b.depth = n + 1 :=
    Nat.exists_eq_add_one.2 (Nat.lt_of_lt_of_le a.depth_pos (Nat.le_max_left _ _))
  have ha : a.depth ≤ n + 1 := by omega
  have hb : b.depth ≤ n + 1 := by omega
  rw [Field.depth_le_succ] at ha hb
  rw [hn, Field.depth_le_succ]
  exact forall_subfields_mergeFieldPair (keeps_depth n) ((keptByKeys_depth n).inherited _) ha hb

/-! ## Mergings that agree -/

/-- Two mergings do the same to fields with a property. -/
def AgreeOn (merge merge' : List Field → List Field) (Q : Field → Prop) : Prop :=
  ∀ fs, (∀ f ∈ fs, Q f) → merge fs = merge' fs

section Agree

variable {Q : Field → Prop}

/-- Mergings that agree below two fields give the same merged pair. -/
theorem mergeFieldPair_congr {a b : Field} (ha : AgreeOn merge merge' Q) (hm : Keeps merge Q)
    (hd : KeptThrough (a.keys.union b.keys) Q) (hqa : ∀ c ∈ a.subfields, Q c)
    (hqb : ∀ c ∈ b.subfields, Q c) :
    mergeFieldPair pass merge a b = mergeFieldPair pass merge' a b := by
  symm
  apply mergeFieldPair_eq_of_calls
  intro fs h
  exact (ha fs (h.forall hm hd hqa hqb)).symm

end Agree

/-! ## Merging without a bound -/

/-- One more level changes nothing where the bound suffices. -/
theorem mergeFieldsAt_succ (n : Nat) :
    AgreeOn (mergeFieldsAt pass (n + 1)) (mergeFieldsAt pass n) fun f => f.depth ≤ n := by
  induction n with
  | zero =>
    intro fs h
    have hn : fs = [] := eq_nil_of_fieldsDepth (Nat.le_zero.1 (fieldsDepth_le.2 h))
    rw [hn]
    rfl
  | succ n ih =>
    intro fs h
    rw [mergeFieldsAt, mergeFieldsAt]
    refine List.map_congr_left fun g hg => ?_
    have hm : ∀ c ∈ g.members, c.depth ≤ n + 1 := fun c hc => h c ((mem_members_iff hg).1 hc).1
    refine foldl_congr_of (p := fun f : Field => f.depth ≤ n + 1) (fun a b ha hb => ?_) hm
    rw [Field.depth_le_succ] at ha hb ⊢
    -- below a pair one level less suffices, where both mergings do the same
    have hk : Keeps (mergeFieldsAt pass (n + 1)) fun f => f.depth ≤ n := by
      intro fs hfs
      rw [ih fs hfs]
      exact depth_mergeFieldsAt n fs hfs
    have hd := (keptByKeys_depth n).inherited (a.keys.union b.keys)
    exact ⟨mergeFieldPair_congr ih hk hd ha hb, forall_subfields_mergeFieldPair hk hd ha hb⟩

/-- **Every bound that suffices gives what merging gives.** -/
theorem mergeFieldsAt_of_le {fs : List Field} {n : Nat} (h : fieldsDepth fs ≤ n) :
    mergeFieldsAt pass n fs = mergeFields pass fs := by
  obtain ⟨k, rfl⟩ := Nat.exists_eq_add_of_le h
  induction k with
  | zero => rfl
  | succ k ih =>
    have hk : fieldsDepth fs ≤ fieldsDepth fs + k := Nat.le_add_right _ _
    rw [← Nat.add_assoc, mergeFieldsAt_succ _ fs (fieldsDepth_le.1 hk), ih hk]

/-- **Merging by response name**, pair by pair, where the fields below a pair are
merged in the same way. -/
theorem mergeFields_eq (fs : List Field) :
    mergeFields pass fs = (groupBy Field.responseName fs).map fun g =>
      g.others.foldl (mergeFieldPair pass (mergeFields pass)) g.first := by
  rw [← mergeFieldsAt_of_le (Nat.le_succ (fieldsDepth fs)), mergeFieldsAt]
  refine List.map_congr_left fun g hg => ?_
  -- what is below a pair fits the bound, so merging it needs none
  have ha : AgreeOn (mergeFieldsAt pass (fieldsDepth fs)) (mergeFields pass)
      fun f => f.depth ≤ fieldsDepth fs := fun gs h => mergeFieldsAt_of_le (fieldsDepth_le.2 h)
  have hm : ∀ c ∈ g.members, c.depth ≤ fieldsDepth fs + 1 := fun c hc =>
    Nat.le_succ_of_le (fieldsDepth_le.1 (Nat.le_refl _) c ((mem_members_iff hg).1 hc).1)
  refine foldl_congr_of (p := fun f : Field => f.depth ≤ fieldsDepth fs + 1)
    (fun a b ha' hb => ?_) hm
  rw [Field.depth_le_succ] at ha' hb ⊢
  have hk : Keeps (mergeFieldsAt pass (fieldsDepth fs)) fun f => f.depth ≤ fieldsDepth fs :=
    depth_mergeFieldsAt _
  have hd := (keptByKeys_depth (fieldsDepth fs)).inherited (a.keys.union b.keys)
  exact ⟨mergeFieldPair_congr ha hk hd ha' hb, forall_subfields_mergeFieldPair hk hd ha' hb⟩

section Everywhere

variable {P : Field → Prop}

/-- What merging pairs keeps is kept everywhere, up to a bound on the depth: what is
below a pair is merged from fields that are nested less deep. -/
theorem keeps_everywhere_at (hd : ∀ a b, P a → P b → KeptThrough (a.keys.union b.keys) P)
    (hp : ∀ a b, P a → P b → P (mergeFieldPair pass (mergeFields pass) a b)) (n : Nat) :
    Keeps (mergeFields pass) fun f => f.depth ≤ n ∧ f.Everywhere P := by
  induction n with
  | zero =>
    intro fs h
    have hz : fieldsDepth fs ≤ 0 := fieldsDepth_le.2 fun f hf => (h f hf).1
    rw [eq_nil_of_fieldsDepth (Nat.le_zero.1 hz), mergeFields_eq]
    simp
  | succ n ih =>
    -- what is below a field fits the smaller bound, and derived keys keep it there
    have hk : ∀ a b : Field, a.Everywhere P → b.Everywhere P →
        KeptThrough (a.keys.union b.keys) fun f => f.depth ≤ n ∧ f.Everywhere P :=
      fun a b ha hb t f h => ⟨keptByKeys_depth n _ f h.1,
        (hd a b (Field.everywhere_iff.1 ha).1 (Field.everywhere_iff.1 hb).1).everywhere t f h.2⟩
    have below : ∀ f : Field, f.depth ≤ n + 1 ∧ f.Everywhere P →
        ∀ c ∈ f.subfields, c.depth ≤ n ∧ c.Everywhere P := fun f h c hc =>
      ⟨Field.depth_le_succ.1 h.1 c hc, (Field.everywhere_iff.1 h.2).2 c hc⟩
    intro fs h f hf
    rw [mergeFields_eq] at hf
    obtain ⟨g, hg, rfl⟩ := List.mem_map.1 hf
    have hm : ∀ c ∈ g.members, c.depth ≤ n + 1 ∧ c.Everywhere P := fun c hc =>
      h c ((mem_members_iff hg).1 hc).1
    refine foldl_of_forall (p := fun f : Field => f.depth ≤ n + 1 ∧ f.Everywhere P)
      (fun a b ha hb => ?_) hm
    have hsub : ∀ c ∈ (mergeFieldPair pass (mergeFields pass) a b).subfields,
        c.depth ≤ n ∧ c.Everywhere P :=
      forall_subfields_mergeFieldPair ih (hk a b ha.2 hb.2) (below a ha) (below b hb)
    rw [Field.depth_le_succ, Field.everywhere_iff]
    have hroot := hp a b (Field.everywhere_iff.1 ha.2).1 (Field.everywhere_iff.1 hb.2).1
    exact ⟨fun c hc => (hsub c hc).1, hroot, fun c hc => (hsub c hc).2⟩

/-- **What merging pairs keeps** holds everywhere in merged fields, if it holds
everywhere in the fields that are merged. -/
theorem keeps_everywhere (hd : ∀ a b, P a → P b → KeptThrough (a.keys.union b.keys) P)
    (hp : ∀ a b, P a → P b → P (mergeFieldPair pass (mergeFields pass) a b)) :
    Keeps (mergeFields pass) (Field.Everywhere P) := by
  intro fs h f hf
  have hb : ∀ g ∈ fs, g.depth ≤ fieldsDepth fs ∧ g.Everywhere P := fun g hg =>
    ⟨fieldsDepth_le.1 (Nat.le_refl _) g hg, h g hg⟩
  exact (keeps_everywhere_at hd hp (fieldsDepth fs) fs hb f hf).2

end Everywhere

end SelectionModel
