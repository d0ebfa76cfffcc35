import Reir.StreamParser

/-! Runs on longer streams. A parser that has returned does the same when more tokens follow, and
when its tokens are replaced by ones it cannot tell apart, as long as it has not seen the end of
the stream. -/
namespace Reir.StreamParser

variable {τ ε α β : Type} {same : τ → τ → Prop} {vs : List τ}

/-- What `p` does on a stream, `q` does on a stream of similar tokens that goes on with `vs`. Where
nothing is left the value has to satisfy `E`, for `p` may have seen the end. -/
def Carries (same : τ → τ → Prop) (vs : List τ) (E : α → Prop) (p q : Parser τ ε α) : Prop :=
  ∀ ⦃us us' a r⦄, List.Forall₂ same us us' → p.run us = .ok a r → (r = [] → E a) →
    ∃ r', q.run (us' ++ vs) = .ok a (r' ++ vs) ∧ List.Forall₂ same r r'

/-- The parser does not return at the end of the stream. -/
def NeedsToken (p : Parser τ ε α) : Prop := ∀ a r, p.run [] ≠ .ok a r

section Carries
variable {p q : Parser τ ε α} {f g : α → Parser τ ε β} {E E' : α → Prop} {F : β → Prop} {e e' : ε}

theorem Carries.mono (h : Carries same vs E p q) (hE : ∀ a, E' a → E a) :
    Carries same vs E' p q := by
  intro us us' a r hsame hrun hend
  exact h hsame hrun fun hr => hE a (hend hr)

theorem carries_pure (a : α) : Carries same vs E (Pure.pure a : Parser τ ε α) (Pure.pure a) := by
  intro us us' b r hsame hrun _
  obtain ⟨rfl, rfl⟩ := Outcome.ok.inj hrun
  exact ⟨us', rfl, hsame⟩

theorem carries_throw : Carries same vs E (Parser.throw e : Parser τ ε α) q := by
  intro us us' a r _ hrun _
  simp at hrun

theorem carries_timeout : Carries same vs E (Parser.timeout : Parser τ ε α) q := by
  intro us us' a r _ hrun _
  simp at hrun

theorem carries_next {E : Unit → Prop} : Carries same vs E (next : Parser τ ε Unit) next := by
  intro us us' a r hsame hrun _
  cases hsame with
  | nil => simp [next] at hrun
  | cons h hsame =>
    obtain ⟨rfl, rfl⟩ := Outcome.ok.inj hrun
    exact ⟨_, rfl, hsame⟩

/-- The first part never ends at the end of the stream where that matters. -/
theorem Carries.bind (hp : Carries same vs (fun _ => True) p q)
    (hf : ∀ a, Carries same vs F (f a) (g a)) : Carries same vs F (p >>= f) (q >>= g) := by
  intro us us' b r hsame hrun hend
  obtain ⟨a, r₁, hrun₁, hrun₂⟩ := bind_eq_ok.mp hrun
  obtain ⟨r₁', hq, hsame₁⟩ := hp hsame hrun₁ fun _ => trivial
  obtain ⟨r', hg, hsame₂⟩ := hf a hsame₁ hrun₂ hend
  exact ⟨r', (bind_ok hq).trans hg, hsame₂⟩

/-- Where the first part reads up to the end, the second returns there as well. -/
theorem Carries.bindEnd (hp : Carries same vs E p q)
    (hedge : ∀ a b r, (f a).run [] = .ok b r → r = [] ∧ (F b → E a))
    (hf : ∀ a, Carries same vs F (f a) (g a)) : Carries same vs F (p >>= f) (q >>= g) := by
  intro us us' b r hsame hrun hend
  obtain ⟨a, r₁, hrun₁, hrun₂⟩ := bind_eq_ok.mp hrun
  have hleft : r₁ = [] → E a := by
    intro hnil
    rw [hnil] at hrun₂
    have hlast := hedge a b r hrun₂
    exact hlast.2 (hend hlast.1)
  obtain ⟨r₁', hq, hsame₁⟩ := hp hsame hrun₁ hleft
  obtain ⟨r', hg, hsame₂⟩ := hf a hsame₁ hrun₂ hend
  exact ⟨r', (bind_ok hq).trans hg, hsame₂⟩

/-- The second part reads a token, so the first has left one. -/
theorem Carries.bindNeeds (hp : Carries same vs E p q) (hneeds : ∀ a, NeedsToken (f a))
    (hf : ∀ a, Carries same vs F (f a) (g a)) : Carries same vs F (p >>= f) (q >>= g) :=
  hp.bindEnd (fun a b r hrun => absurd hrun (hneeds a b r)) hf

/-- The first part is the last to read. -/
theorem Carries.bindPure {h : α → β} (hp : Carries same vs E p q) (hE : ∀ a, F (h a) → E a) :
    Carries same vs F (p >>= fun a => Pure.pure (h a)) (q >>= fun a => Pure.pure (h a)) := by
  intro us us' b r hsame hrun hend
  obtain ⟨a, r₁, hrun₁, hrun₂⟩ := bind_eq_ok.mp hrun
  obtain ⟨rfl, rfl⟩ := Outcome.ok.inj hrun₂
  obtain ⟨r', hq, hsame'⟩ := hp hsame hrun₁ fun hr => hE a (hend hr)
  exact ⟨r', (bind_ok hq).trans rfl, hsame'⟩

theorem Carries.map {h : α → β} (hp : Carries same vs E p q) (hE : ∀ a, F (h a) → E a) :
    Carries same vs F (h <$> p) (h <$> q) :=
  hp.bindPure hE

theorem Carries.get {f g : τ → Parser τ ε α} (h : ∀ t t', same t t' → Carries same vs E (f t) (g t')) :
    Carries same vs E (StreamParser.get e >>= f) (StreamParser.get e' >>= g) := by
  intro us us' a r hsame hrun hend
  cases hsame with
  | nil => simp at hrun
  | @cons t t' us us' ht hsame => exact h t t' ht (.cons ht hsame) hrun hend

theorem Carries.ite {c : Prop} [Decidable c] {p' q' : Parser τ ε α} (h : Carries same vs E p q)
    (h' : Carries same vs E p' q') : Carries same vs E (if c then p else p') (if c then q else q') := by
  split_ifs
  · exact h
  · exact h'

/-- The end of the stream is asked for. There `p` returns at once, and `q` has to return the same
in front of `vs`. -/
theorem Carries.hasNext {f g : Bool → Parser τ ε α} {a : α}
    (htrue : Carries same vs E (f true) (g true)) (hfalse : (f false).run [] = .ok a [])
    (hend : E a → (StreamParser.hasNext >>= g).run vs = .ok a vs) :
    Carries same vs E (StreamParser.hasNext >>= f) (StreamParser.hasNext >>= g) := by
  intro us us' b r hsame hrun hE
  cases hsame with
  | nil =>
    have hsame_run : (f false).run [] = .ok b r := hrun
    obtain ⟨rfl, rfl⟩ := Outcome.ok.inj (hfalse.symm.trans hsame_run)
    exact ⟨[], hend (hE rfl), .nil⟩
  | cons ht hsame => exact htrue (.cons ht hsame) hrun hE

end Carries

/-- Both return, and then `q` returns the value of `p` and goes no further. -/
def Agrees (same : τ → τ → Prop) (vs : List τ) (p q : Parser τ ε α) : Prop :=
  ∀ ⦃us us' a b r r'⦄, List.Forall₂ same us us' → p.run us = .ok a r →
    q.run (us' ++ vs) = .ok b r' → b = a ∧ ∃ r'', r' = r'' ++ vs ∧ List.Forall₂ same r r''

/-- Where `p` reads up to the end, `q` leaves a rest with the property `R`. -/
def Edge (same : τ → τ → Prop) (vs : List τ) (R : List τ → Prop) (p q : Parser τ ε α) : Prop :=
  ∀ ⦃us us' a b r'⦄, List.Forall₂ same us us' → p.run us = .ok a [] →
    q.run (us' ++ vs) = .ok b r' → R r'

section Agrees
variable {p q : Parser τ ε α} {f g : α → Parser τ ε β} {R : List τ → Prop}

theorem Carries.agrees_of_le {F : ℕ → Parser τ ε α} (hF : ∀ n, Refines (F n) (F (n+1)))
    (h : ∀ n, Carries same vs (fun _ => True) (F n) (F (n+1))) (n m : ℕ) :
    Agrees same vs (F n) (F m) := by
  intro us us' a b r r' hsame hrun hq
  obtain ⟨r'', hnext, hrest⟩ := h n hsame hrun fun _ => trivial
  obtain ⟨rfl, rfl⟩ := Yields.unique hF ⟨m, hq⟩ ⟨n+1, hnext⟩
  exact ⟨rfl, r'', rfl, hrest⟩

theorem Carries.agrees (h : Carries same vs (fun _ => True) p p) : Agrees same vs p p :=
  Carries.agrees_of_le (F := fun _ => p) (fun _ => Refines.refl _) (fun _ => h) 0 0

theorem Edge.bind (hp : Agrees same vs p q) (hf : ∀ a, Edge same vs R (f a) (g a)) :
    Edge same vs R (p >>= f) (q >>= g) := by
  intro us us' b b' r' hsame hrun hq
  obtain ⟨a, r₁, hrun₁, hrun₂⟩ := bind_eq_ok.mp hrun
  obtain ⟨a', r₁', hq₁, hq₂⟩ := bind_eq_ok.mp hq
  obtain ⟨rfl, r'', rfl, hrest⟩ := hp hsame hrun₁ hq₁
  exact hf _ hrest hrun₂ hq₂

theorem Edge.bindPure {h : α → β} (hp : Edge same vs R p q) :
    Edge same vs R (p >>= fun a => Pure.pure (h a)) (q >>= fun a => Pure.pure (h a)) := by
  intro us us' b b' r' hsame hrun hq
  obtain ⟨a, r₁, hrun₁, hrun₂⟩ := bind_eq_ok.mp hrun
  obtain ⟨a', r₁', hq₁, hq₂⟩ := bind_eq_ok.mp hq
  obtain ⟨-, rfl⟩ := Outcome.ok.inj hrun₂
  obtain ⟨-, rfl⟩ := Outcome.ok.inj hq₂
  exact hp hsame hrun₁ hq₁

end Agrees

/-- The two parsers leave the same rest. -/
def SameRest (p : Parser τ ε α) (q : Parser τ ε β) : Prop :=
  ∀ ⦃ts a r⦄, p.run ts = .ok a r → ∃ b, q.run ts = .ok b r

section SameRest
variable {γ : Type} {p : Parser τ ε α}

theorem sameRest_pure (a : α) (b : β) :
    SameRest (Pure.pure a : Parser τ ε α) (Pure.pure b : Parser τ ε β) := by
  intro ts c r h
  obtain ⟨-, rfl⟩ := Outcome.ok.inj h
  exact ⟨b, rfl⟩

theorem sameRest_timeout {q : Parser τ ε β} : SameRest (Parser.timeout : Parser τ ε α) q := by
  intro ts a r h
  simp at h

theorem SameRest.bind {f : α → Parser τ ε β} {g : α → Parser τ ε γ}
    (h : ∀ a, SameRest (f a) (g a)) : SameRest (p >>= f) (p >>= g) := by
  intro ts b r hrun
  obtain ⟨a, r₁, hp, hf⟩ := bind_eq_ok.mp hrun
  obtain ⟨c, hg⟩ := h a hf
  exact ⟨c, (bind_ok hp).trans hg⟩

end SameRest

section NeedsToken
variable {p : Parser τ ε α} {f : α → Parser τ ε β} {e : ε}

theorem needsToken_get {f : τ → Parser τ ε α} : NeedsToken (get e >>= f) := by
  intro a r h
  simp at h

theorem NeedsToken.bind (h : NeedsToken p) : NeedsToken (p >>= f) := by
  intro b r hrun
  obtain ⟨a, r₁, hp, _⟩ := bind_eq_ok.mp hrun
  exact h a r₁ hp

end NeedsToken

end Reir.StreamParser
