import SelectionModel.Language.Grammar
import SelectionModel.Proofs.Language.Lexemes
import SelectionModel.Proofs.Steps

/-!
# What rules of the grammar take

A rule that succeeds takes tokens from the front of what it is given. Which tokens these
can be is said by a property of lists of tokens, and a rule that is made of others takes
what these take, one after the other.

* `Grammar.Takes`: what a rule takes.
* `Takes.bind`: **a rule made of two others.**
* `takes_whileAt`, `takes_optionalBrackets`: rules that are repeated.
* `exists_of_mem_document`: where what a document is made of stands.
-/

namespace SelectionModel

namespace Grammar

variable {α β : Type} {S T U : List Token → Prop}

/-- **What a rule takes**: tokens with a property, in front of what it leaves. -/
def Takes (g : Grammar α) (S : List Token → Prop) : Prop :=
  ∀ ⦃ts : Tokens⦄ ⦃a : α⦄ ⦃ts' : Tokens⦄, g ts = .ok (a, ts') →
    ∃ xs : List PlacedToken, ts = ts'.behind xs ∧ S (xs.map PlacedToken.token)

/-- What a rule takes when it finds a token at hand, or the end. -/
def TakesAt (t : Option Token) (g : Grammar α) (S : List Token → Prop) : Prop :=
  ∀ ⦃ts : Tokens⦄ ⦃a : α⦄ ⦃ts' : Tokens⦄, ts.head? = t → g ts = .ok (a, ts') →
    ∃ xs : List PlacedToken, ts = ts'.behind xs ∧ S (xs.map PlacedToken.token)

theorem bind_eq_ok {g : Grammar α} {f : α → Grammar β} {ts ts' : Tokens} {b : β} :
    (g >>= f) ts = .ok (b, ts') ↔ ∃ a mid, g ts = .ok (a, mid) ∧ f a mid = .ok (b, ts') :=
  Except.bind_eq_ok.trans Prod.exists

theorem exists_of_head? {ts : Tokens} {t : Token} (h : ts.head? = some t) :
    ∃ p rest, ts = .token p t rest := by
  cases ts with
  | token p s rest =>
    obtain rfl := Option.some.inj h
    exact ⟨p, rest, rfl⟩
  | finish p => cases h
  | invalid p => cases h

/-! ## Rules made of others -/

section Combine

variable {g : Grammar α} {f : α → Grammar β}

theorem Takes.mono (h : g.Takes S) (hs : ∀ xs, S xs → T xs) : g.Takes T := by
  intro ts a ts' hg
  obtain ⟨xs, hxs, hS⟩ := h hg
  exact ⟨xs, hxs, hs _ hS⟩

theorem Takes.at (h : g.Takes S) (t : Option Token) : TakesAt t g S := fun _ _ _ _ hg => h hg

/-- **A rule made of two others** takes what the first takes and then what the second does. -/
theorem Takes.bind (hg : g.Takes S) (hf : ∀ a, (f a).Takes T)
    (hu : ∀ xs ys, S xs → T ys → U (xs ++ ys)) : (g >>= f).Takes U := by
  intro ts b ts' h
  obtain ⟨a, mid, ha, hb⟩ := bind_eq_ok.1 h
  obtain ⟨xs, rfl, hS⟩ := hg ha
  obtain ⟨ys, rfl, hT⟩ := hf a hb
  refine ⟨xs ++ ys, Tokens.behind_append.symm, ?_⟩
  rw [List.map_append]
  exact hu _ _ hS hT

/-- A rule that takes nothing, and another one. -/
theorem Takes.bind_nil (hg : g.Takes (· = [])) (hf : ∀ a, (f a).Takes T) : (g >>= f).Takes T :=
  hg.bind hf fun xs ys hx hy => by rwa [hx, List.nil_append]

/-- A rule, and what is made of its result. -/
theorem Takes.bind_pure (hg : g.Takes S) {h : α → β} :
    (g >>= fun a => (pure (h a) : Grammar β)).Takes S := by
  intro ts b ts' hb
  obtain ⟨a, mid, ha, hp⟩ := bind_eq_ok.1 hb
  obtain ⟨-, rfl⟩ := Prod.mk.inj (Except.ok.inj hp)
  exact hg ha

theorem Takes.map (hg : g.Takes S) {h : α → β} : (h <$> g).Takes S := by
  rw [map_eq_pure_bind]
  exact hg.bind_pure

theorem takes_pure (a : α) (h : S []) : (pure a : Grammar α).Takes S := by
  intro ts b ts' hp
  obtain ⟨-, rfl⟩ := Prod.mk.inj (Except.ok.inj hp)
  exact ⟨[], rfl, h⟩

theorem takes_fail : (fail : Grammar α).Takes S := by
  intro ts b ts' h
  cases h

/-- A rule that only looks at what is there. -/
theorem takes_test (f : Tokens → Bool) : Takes (fun ts => .ok (f ts, ts)) (· = []) := by
  intro ts b ts' h
  obtain ⟨-, rfl⟩ := Prod.mk.inj (Except.ok.inj h)
  exact ⟨[], rfl, rfl⟩

theorem takes_position : position.Takes (· = []) := by
  intro ts b ts' h
  obtain ⟨-, rfl⟩ := Prod.mk.inj (Except.ok.inj h)
  exact ⟨[], rfl, rfl⟩

/-- A rule that looks at the token at hand. -/
theorem takes_peek {f : Option Token → Grammar β} (h : ∀ t, TakesAt t (f t) S) :
    (peek >>= f).Takes S := by
  intro ts b ts' hb
  obtain ⟨a, mid, ha, hf⟩ := bind_eq_ok.1 hb
  obtain ⟨rfl, rfl⟩ := Prod.mk.inj (Except.ok.inj ha)
  exact h _ rfl hf

/-- A rule that takes the token at hand. -/
theorem takesAt_next {t : Token} {g : Grammar β} (hg : g.Takes T)
    (hs : ∀ xs, T xs → S (t :: xs)) : TakesAt (some t) (discard next >>= fun _ => g) S := by
  intro ts b ts' hhead h
  obtain ⟨p, rest, rfl⟩ := exists_of_head? hhead
  obtain ⟨xs, rfl, hT⟩ := hg h
  exact ⟨⟨p, t⟩ :: xs, rfl, hs _ hT⟩

/-- The same at the end of a rule. -/
theorem takesAt_discard_next {t : Token} (hs : S [t]) : TakesAt (some t) (discard next) S := by
  intro ts b ts' hhead h
  obtain ⟨p, rest, rfl⟩ := exists_of_head? hhead
  obtain ⟨-, rfl⟩ := Prod.mk.inj (Except.ok.inj h)
  exact ⟨[⟨p, t⟩], rfl, hs⟩

/-- A rule that asks for the token at hand. -/
theorem takes_ask {t : Token} {f : Bool → Grammar β} (ht : TakesAt (some t) (f true) S)
    (hf : (f false).Takes S) : (peek >>= fun s => f (s == some t)).Takes S := by
  refine takes_peek fun s => ?_
  by_cases hs : s = some t
  · subst hs
    rwa [beq_self_eq_true]
  · rw [beq_eq_false_iff_ne.2 hs]
    exact hf.at s

end Combine

/-! ## Single tokens -/

section Single

variable {c : Char} {f : Bool → Grammar β}

theorem takes_atPunctuator : (atPunctuator c).Takes (· = []) :=
  takes_peek fun t => Takes.at (S := (· = [])) (takes_pure _ rfl) t

theorem takes_notClosing : (notClosing c).Takes (· = []) :=
  takes_atPunctuator.bind_nil fun _ => takes_pure _ rfl

theorem takes_punctuator : (punctuator c).Takes (· = [.punctuator c]) :=
  takes_ask (t := .punctuator c) (f := fun b => if b = true then discard next else fail)
    (takesAt_discard_next rfl) takes_fail

theorem takes_keyword {s : String} : (keyword s).Takes (· = [.name s]) :=
  takes_ask (t := .name s) (f := fun b => if b = true then discard next else fail)
    (takesAt_discard_next rfl) takes_fail

theorem takes_name : name.Takes fun xs => ∃ s, xs = [.name s] := by
  refine takes_peek fun t => ?_
  split
  next s => exact takesAt_next (takes_pure s rfl) fun xs hxs => ⟨s, by rw [hxs]⟩
  · exact takes_fail.at _

/-- A token that is skipped if it is at hand, and what follows in either case. -/
theorem takes_skip {t : Token} (ht : (f true).Takes T) (hs : ∀ xs, T xs → S (t :: xs))
    (hf : (f false).Takes S) :
    (peek >>= fun s =>
      (if (s == some t) = true then (do discard next; return true) else return false) >>= f).Takes
        S := by
  refine takes_ask
    (f := fun b => (if b = true then (do discard next; return true) else return false) >>= f)
    ?_ hf
  intro ts b ts' hhead h
  obtain ⟨p, rest, rfl⟩ := exists_of_head? hhead
  exact takesAt_next ht hs hhead h

theorem takes_skipPunctuator (ht : (f true).Takes T) (hs : ∀ xs, T xs → S (.punctuator c :: xs))
    (hf : (f false).Takes S) : (skipPunctuator c >>= f).Takes S :=
  fun _ _ _ h => takes_skip ht hs hf h

theorem takes_skipKeyword {s : String} (ht : (f true).Takes T)
    (hs : ∀ xs, T xs → S (.name s :: xs)) (hf : (f false).Takes S) :
    (skipKeyword s >>= f).Takes S :=
  fun _ _ _ h => takes_skip ht hs hf h

end Single

/-! ## Rules that are repeated -/

/-- A property of lists of tokens that lists in a row have when each of them has. -/
structure Closed (S : List Token → Prop) : Prop where
  nil : S []
  append : ∀ xs ys, S xs → S ys → S (xs ++ ys)

section Repeat

variable {rule : Grammar α} {more : Grammar Bool}

theorem takes_whileAt (hS : Closed S) (hm : more.Takes (· = [])) (hr : rule.Takes S)
    (bound : Nat) : (whileAt more rule bound).Takes S := by
  induction bound with
  | zero => exact takes_fail
  | succ bound ih =>
    rw [whileAt]
    refine hm.bind_nil fun b => ?_
    cases b with
    | false => exact takes_pure _ hS.nil
    | true => exact hr.bind (fun a => ih.bind_pure) hS.append

/-- A rule repeated at least once up to a closing bracket, which is taken as well. -/
theorem takes_nonemptyUntil {c : Char} (hS : Closed S) (hr : rule.Takes S) (bound : Nat) :
    (nonemptyUntil c rule bound).Takes fun xs => ∃ ys, xs = ys ++ [.punctuator c] ∧ S ys := by
  have hlist : (listUntil c rule bound).Takes fun xs =>
      ∃ ys, xs = ys ++ [.punctuator c] ∧ S ys := by
    refine (takes_whileAt hS takes_notClosing hr bound).bind
      (fun as => takes_punctuator.bind_pure) fun xs ys hx hy => ?_
    exact ⟨xs, by rw [hy], hx⟩
  refine hr.bind (fun a => hlist.bind_pure) ?_
  rintro xs _ hx ⟨ys, rfl, hy⟩
  exact ⟨xs ++ ys, (List.append_assoc _ _ _).symm, hS.append _ _ hx hy⟩

/-- **A rule in brackets**, or nothing. -/
theorem takes_optionalBrackets {c d : Char} (hS : Closed S) (hr : rule.Takes S) (bound : Nat) :
    (optionalBrackets c d rule bound).Takes fun xs =>
      xs = [] ∨ ∃ ys, xs = .punctuator c :: (ys ++ [.punctuator d]) ∧ S ys := by
  refine takes_skipPunctuator (takes_nonemptyUntil hS hr bound) ?_ (takes_pure _ (.inl rfl))
  rintro _ ⟨ys, rfl, hy⟩
  exact .inr ⟨ys, rfl, hy⟩

/-- What a repeated rule gives back stands behind what the rule took before. -/
theorem exists_of_mem_whileAt (hm : more.Takes (· = [])) (hr : rule.Takes S) {bound : Nat}
    {ts ts' : Tokens} {as : List α} {a : α} (h : whileAt more rule bound ts = .ok (as, ts')) (ha : a ∈ as) :
    ∃ (xs : List PlacedToken) (mid mid' : Tokens),
      ts = mid.behind xs ∧ rule mid = .ok (a, mid') := by
  induction bound generalizing ts as with
  | zero => cases h
  | succ bound ih =>
    rw [whileAt] at h
    obtain ⟨b, start, hmore, h⟩ := bind_eq_ok.1 h
    obtain rfl : ts = start := by
      obtain ⟨xs, hxs, hnil⟩ := hm hmore
      rwa [List.map_eq_nil_iff.1 hnil, Tokens.behind_nil] at hxs
    cases b with
    | false =>
      obtain ⟨rfl, -⟩ := Prod.mk.inj (Except.ok.inj h)
      exact absurd ha List.not_mem_nil
    | true =>
      obtain ⟨first, mid, hfirst, h⟩ := bind_eq_ok.1 h
      obtain ⟨others, last, hothers, h⟩ := bind_eq_ok.1 h
      obtain ⟨rfl, rfl⟩ := Prod.mk.inj (Except.ok.inj h)
      rcases List.mem_cons.1 ha with rfl | ha
      · exact ⟨[], _, mid, rfl, hfirst⟩
      · obtain ⟨xs, rfl, -⟩ := hr hfirst
        obtain ⟨ys, here, there, rfl, hrule⟩ := ih hothers ha
        exact ⟨xs ++ ys, here, there, Tokens.behind_append.symm, hrule⟩

/-- Each definition of a document stands behind the tokens of others. -/
theorem exists_of_mem_document (hr : rule.Takes S) {bound : Nat} {ts ts' : Tokens}
    {as : List α} {a : α} (h : document rule bound ts = .ok (as, ts')) (ha : a ∈ as) :
    ∃ (xs : List PlacedToken) (mid mid' : Tokens),
      ts = mid.behind xs ∧ rule mid = .ok (a, mid') := by
  obtain ⟨first, mid, hfirst, h⟩ := bind_eq_ok.1 h
  obtain ⟨others, last, hothers, h⟩ := bind_eq_ok.1 h
  obtain ⟨rfl, rfl⟩ := Prod.mk.inj (Except.ok.inj h)
  rcases List.mem_cons.1 ha with rfl | ha
  · exact ⟨[], ts, mid, rfl, hfirst⟩
  · obtain ⟨xs, rfl, -⟩ := hr hfirst
    obtain ⟨ys, here, there, rfl, hrule⟩ := exists_of_mem_whileAt (takes_test _) hr hothers ha
    exact ⟨xs ++ ys, here, there, Tokens.behind_append.symm, hrule⟩

end Repeat

end Grammar

end SelectionModel
