import Mathlib.Data.List.Forall2

/-!
# Steps that succeed

A computation that can fail succeeds when all of its steps do, and fails with an error of
one of them. Two computations give the same, up to functions of the results, when their
steps do; so they do up to a form of the results.
-/

namespace SelectionModel

variable {ε α β : Type}

theorem Except.bind_eq_ok {x : Except ε α} {f : α → Except ε β} {b : β} :
    x >>= f = .ok b ↔ ∃ a, x = .ok a ∧ f a = .ok b := by
  cases x <;> simp [bind, Except.bind]

theorem Except.map_eq_ok {x : Except ε α} {f : α → β} {b : β} :
    x.map f = .ok b ↔ ∃ a, x = .ok a ∧ f a = b := by
  cases x <;> simp [Except.map]

@[simp] theorem Except.throw_ne_ok {e : ε} {a : α} : (throw e : Except ε α) ≠ .ok a := by
  simp [throw, throwThe, MonadExceptOf.throw]

/-- A result with a property that can be checked. -/
theorem Except.exists_of_any {x : Except ε α} {p : α → Prop} [DecidablePred p]
    (h : (x.toOption.any fun a => decide (p a)) = true) : ∃ a, x = .ok a ∧ p a := by
  cases x with
  | ok a => exact ⟨a, rfl, of_decide_eq_true h⟩
  | error e => cases h

theorem Except.mapM_eq_ok {f : α → Except ε β} {l : List α} {bs : List β} :
    l.mapM f = .ok bs ↔ List.Forall₂ (fun a b => f a = .ok b) l bs := by
  induction l generalizing bs with
  | nil => simp [pure, Except.pure, eq_comm]
  | cons a l ih =>
    rw [List.mapM_cons, Except.bind_eq_ok, List.forall₂_cons_left_iff]
    refine exists_congr fun b => ?_
    rw [Except.bind_eq_ok]
    constructor
    · rintro ⟨hb, cs, hcs, h⟩
      exact ⟨cs, hb, ih.1 hcs, (Except.ok.inj h).symm⟩
    · rintro ⟨cs, hb, hcs, rfl⟩
      exact ⟨hb, cs, ih.2 hcs, rfl⟩

/-- Steps over a list succeed when a function gives what each of them does. -/
theorem Except.mapM_eq_ok_map [Inhabited β] {f : α → Except ε β} {l : List α} {bs : List β} :
    l.mapM f = .ok bs ↔ ∃ g : α → β, (∀ a ∈ l, f a = .ok (g a)) ∧ bs = l.map g := by
  rw [mapM_eq_ok]
  constructor
  · intro h
    have hg : ∀ a b, f a = .ok b → ((f a).toOption.getD default) = b := by
      intro a b hb
      rw [hb]
      rfl
    refine ⟨fun a => (f a).toOption.getD default, ?_⟩
    induction h with
    | nil => exact ⟨List.forall_mem_nil _, rfl⟩
    | cons hab _ ih =>
      obtain ⟨hall, hmap⟩ := ih
      refine ⟨List.forall_mem_cons.2 ⟨?_, hall⟩, ?_⟩
      · exact hab.trans (congrArg Except.ok (hg _ _ hab).symm)
      · rw [List.map_cons, hg _ _ hab, ← hmap]
  · rintro ⟨g, hg, rfl⟩
    exact List.forall₂_map_right_iff.2 (List.forall₂_same.2 hg)

/-- What every step keeps holds of the result of a fold. -/
theorem Except.foldlM_keeps {f : β → α → Except ε β} {p : β → Prop}
    (hf : ∀ b a b', p b → f b a = .ok b' → p b') {l : List α} {b b' : β} (hb : p b)
    (h : l.foldlM f b = .ok b') : p b' := by
  induction l generalizing b with
  | nil =>
    obtain rfl := Except.ok.inj h
    exact hb
  | cons a l ih =>
    rw [List.foldlM_cons, Except.bind_eq_ok] at h
    obtain ⟨c, hc, h⟩ := h
    exact ih (hf b a c hb hc) h

theorem Except.foldlM_cons_eq_ok {f : β → α → Except ε β} {a : α} {l : List α} {b b' : β} :
    (a :: l).foldlM f b = .ok b' ↔ ∃ c, f b a = .ok c ∧ l.foldlM f c = .ok b' := by
  rw [List.foldlM_cons, Except.bind_eq_ok]

/-- **A fold fails where its first step does**: the steps before it succeed. -/
theorem Except.foldlM_eq_error {f : β → α → Except ε β} {l : List α} {b : β} {e : ε} :
    l.foldlM f b = .error e ↔ ∃ before a after c,
      l = before ++ a :: after ∧ before.foldlM f b = .ok c ∧ f c a = .error e := by
  constructor
  · intro h
    induction l generalizing b with
    | nil => cases h
    | cons a l ih =>
      rw [List.foldlM_cons] at h
      cases ha : f b a with
      | error e' =>
        rw [ha] at h
        obtain rfl := Except.error.inj h
        exact ⟨[], a, l, b, rfl, rfl, ha⟩
      | ok b' =>
        rw [ha] at h
        obtain ⟨before, x, after, c, rfl, hbefore, hx⟩ := ih h
        exact ⟨a :: before, x, after, c, rfl, foldlM_cons_eq_ok.2 ⟨b', ha, hbefore⟩, hx⟩
  · rintro ⟨before, a, after, c, rfl, hbefore, ha⟩
    have hrest : (a :: after).foldlM f c = .error e := by
      rw [List.foldlM_cons, ha]
      rfl
    rw [List.foldlM_append, hbefore]
    exact hrest

theorem Except.map_bind {γ : Type} (x : Except ε α) (f : α → β) (g : β → Except ε γ) :
    x.map f >>= g = x >>= fun a => g (f a) := by
  cases x <;> rfl

theorem Except.mapM_flatten_cons (f : α → Except ε (List β)) (a : α) (l : List α) :
    ((a :: l).mapM f >>= fun bs => pure bs.flatten) =
      f a >>= fun b => (l.mapM f >>= fun bs => pure bs.flatten) >>= fun bs => pure (b ++ bs) := by
  rw [List.mapM_cons]
  cases f a with
  | error e => rfl
  | ok b => cases l.mapM f <;> rfl

/-- Two computations whose steps give the same do so as a whole. -/
theorem Except.bind_congr {x : Except ε α} {f f' : α → Except ε β}
    (h : ∀ a, x = .ok a → f a = f' a) : x >>= f = x >>= f' := by
  cases x with
  | error err => rfl
  | ok a => exact h a rfl

theorem Except.mapM_congr {f f' : α → Except ε β} {l : List α} (h : ∀ a ∈ l, f a = f' a) :
    l.mapM f = l.mapM f' := by
  induction l with
  | nil => rfl
  | cons a l ih =>
    rw [List.mapM_cons, List.mapM_cons, h a List.mem_cons_self,
      ih fun a ha => h a (List.mem_cons_of_mem _ ha)]

/-! ## Errors of steps -/

section Errors

variable {p : ε → Prop}

/-- **A computation can fail with errors of one kind only.** -/
def Except.FailsWith (p : ε → Prop) (x : Except ε α) : Prop := ∀ e, x = .error e → p e

namespace Except.FailsWith

theorem ok (a : α) : FailsWith p (.ok a) := fun _ h => by cases h

theorem error {e : ε} (h : p e) : FailsWith p (.error e : Except ε α) := fun _ he => by
  cases he
  exact h

theorem bind {x : Except ε α} {f : α → Except ε β} (hx : FailsWith p x)
    (hf : ∀ a, x = .ok a → FailsWith p (f a)) : FailsWith p (x >>= f) := by
  cases x with
  | error e => exact error (hx e rfl)
  | ok a => exact hf a rfl

theorem map {x : Except ε α} (hx : FailsWith p x) (f : α → β) : FailsWith p (x.map f) := by
  cases x with
  | error e => exact error (hx e rfl)
  | ok a => exact ok (f a)

theorem mapM {f : α → Except ε β} {l : List α} (h : ∀ a ∈ l, FailsWith p (f a)) :
    FailsWith p (l.mapM f) := by
  induction l with
  | nil => exact ok []
  | cons a l ih =>
    obtain ⟨ha, hl⟩ := List.forall_mem_cons.1 h
    rw [List.mapM_cons]
    exact ha.bind fun b _ => (ih hl).bind fun bs _ => ok (b :: bs)

end Except.FailsWith

end Errors

/-! ## Steps that do the same up to functions -/

section Map

variable {α' β' : Type} {e : α → α'} {e' : β → β'}

/-- Two computations whose steps give the same up to functions do so as a whole. -/
theorem Except.bind_eq_map {x : Except ε α} {x' : Except ε α'} {f : α → Except ε β}
    {f' : α' → Except ε β'} (hx : x' = x.map e) (hf : ∀ a, f' (e a) = (f a).map e') :
    x' >>= f' = (x >>= f).map e' := by
  rw [hx]
  cases x with
  | error err => rfl
  | ok a => exact hf a

theorem Except.bind_eq_map_right {x : Except ε α} {f : α → Except ε β} {f' : α → Except ε β'}
    (hf : ∀ a, f' a = (f a).map e') : x >>= f' = (x >>= f).map e' := by
  cases x with
  | error err => rfl
  | ok a => exact hf a

theorem Except.mapM_eq_map {f : α → Except ε β} {f' : α → Except ε β'} {l : List α}
    (h : ∀ a ∈ l, f' a = (f a).map e') : l.mapM f' = (l.mapM f).map (List.map e') := by
  induction l with
  | nil => rfl
  | cons a l ih =>
    rw [List.mapM_cons, List.mapM_cons]
    refine bind_eq_map (h a List.mem_cons_self) fun b => ?_
    refine bind_eq_map (ih fun a ha => h a (List.mem_cons_of_mem _ ha)) fun bs => ?_
    rfl

end Map

/-! ## Steps that do the same up to a form -/

section SameUpTo

variable {γ δ : Type} {e : ε → ε → Prop} {F : α → γ} {G : β → δ} {x y : Except ε α}

/-- **Two computations do the same up to a form**: both fail, with related errors, or both
give results of one form. -/
inductive Except.SameUpTo (e : ε → ε → Prop) (F : α → γ) : Except ε α → Except ε α → Prop where
  | error {err err' : ε} : e err err' → SameUpTo e F (.error err) (.error err')
  | ok {a a' : α} : F a = F a' → SameUpTo e F (.ok a) (.ok a')

namespace Except.SameUpTo

theorem refl (he : ∀ err, e err err) (x : Except ε α) : SameUpTo e F x x := by
  cases x with
  | error err => exact .error (he err)
  | ok a => exact .ok rfl

/-- Two computations whose steps do the same up to forms do so as a whole. -/
theorem bind {f g : α → Except ε β} (h : SameUpTo e F x y)
    (hf : ∀ a b, x = .ok a → F a = F b → SameUpTo e G (f a) (g b)) :
    SameUpTo e G (x >>= f) (y >>= g) := by
  cases h with
  | error h => exact .error h
  | ok h => exact hf _ _ rfl h

theorem bind_right {f g : α → Except ε β} (he : ∀ err, e err err)
    (hf : ∀ a, x = .ok a → SameUpTo e G (f a) (g a)) : SameUpTo e G (x >>= f) (x >>= g) := by
  cases x with
  | error err => exact .error (he err)
  | ok a => exact hf a rfl

theorem map {f : α → β} (h : SameUpTo e F x y) (hf : ∀ a b, F a = F b → G (f a) = G (f b)) :
    SameUpTo e G (x.map f) (y.map f) := by
  cases h with
  | error h => exact .error h
  | ok h => exact .ok (hf _ _ h)

theorem mapM {f g : α → Except ε β} {l : List α} (h : ∀ a ∈ l, SameUpTo e G (f a) (g a)) :
    SameUpTo e (List.map G) (l.mapM f) (l.mapM g) := by
  induction l with
  | nil => exact .ok rfl
  | cons a l ih =>
    obtain ⟨ha, hl⟩ := List.forall_mem_cons.1 h
    rw [List.mapM_cons, List.mapM_cons]
    refine ha.bind fun b b' _ hb => ?_
    refine (ih hl).bind fun bs bs' _ hbs => ?_
    exact .ok (congrArg₂ List.cons hb hbs)

theorem exists_ok_iff (h : SameUpTo e F x y) : (∃ a, x = .ok a) ↔ ∃ a, y = .ok a := by
  cases h <;> simp

theorem of_exists_ok_iff (h : (∃ a, x = .ok a) ↔ ∃ a, y = .ok a)
    (hf : ∀ a b, x = .ok a → y = .ok b → F a = F b) : SameUpTo (fun _ _ => True) F x y := by
  cases x with
  | error err =>
    cases y with
    | error err' => exact .error trivial
    | ok b =>
      obtain ⟨a, ha⟩ := h.2 ⟨b, rfl⟩
      cases ha
  | ok a =>
    obtain ⟨b, rfl⟩ := h.1 ⟨a, rfl⟩
    exact .ok (hf a b rfl rfl)

theorem toOption_eq (h : SameUpTo e F x y) : x.toOption.map F = y.toOption.map F := by
  cases h with
  | error _ => rfl
  | ok h => exact congrArg some h

theorem eq (h : SameUpTo Eq F x y) (hF : Function.Injective F) : x = y := by
  cases h with
  | error h => rw [h]
  | ok h => rw [hF h]

end Except.SameUpTo

end SameUpTo

end SelectionModel
