import Reir.StructuredCode

/-! Behaviours of programs with output, and structured code that has them. A behaviour relates the
state that a program starts from with the state that it ends in, unless it is still running, and
with what it has put out by then. -/
namespace StructuredCode

/-- What a program may do from a state. -/
abbrev Behaviour (σ σ' ω : Type) := σ → Option σ' → List ω → Prop

namespace Behaviour
variable {σ σ₁ σ₂ ω : Type}

/-- A step that comes to its end at once, or not at all. -/
def step (f : σ → Option (σ₁ × List ω)) : Behaviour σ σ₁ ω := fun s r os =>
  (r = none ∧ os = []) ∨ ∃ s₁, f s = some (s₁, os) ∧ ∀ s' ∈ r, s' = s₁

/-- A step without output. -/
abbrev silent (f : σ → Option σ₁) : Behaviour σ σ₁ ω := step fun s => (f s).map fun s' => (s', [])

def seq (A : Behaviour σ σ₁ ω) (B : Behaviour σ₁ σ₂ ω) : Behaviour σ σ₂ ω := fun s r os =>
  (r = none ∧ A s none os) ∨ ∃ s₁ os₁ os₂, A s (some s₁) os₁ ∧ B s₁ r os₂ ∧ os = os₁ ++ os₂

def branch (c : σ → Option (Bool × σ)) (A B : Behaviour σ σ₁ ω) : Behaviour σ σ₁ ω := fun s r os =>
  (r = none ∧ os = []) ∨ ∃ b s₁, c s = some (b, s₁) ∧ (if b then A else B) s₁ r os

/-- `A` is repeated as long as the condition holds before it. -/
inductive loop (c : σ → Option (Bool × σ)) (A : Behaviour σ σ ω) : Behaviour σ σ ω
  | wait (s : σ) : loop c A s none []
  | done {s s' : σ} : c s = some (false, s') → loop c A s (some s') []
  | within {s s₁ : σ} {os : List ω} : c s = some (true, s₁) → A s₁ none os → loop c A s none os
  | next {s s₁ s₂ : σ} {r : Option σ} {os₁ os₂ : List ω} : c s = some (true, s₁) →
      A s₁ (some s₂) os₁ → loop c A s₂ r os₂ → loop c A s r (os₁ ++ os₂)

theorem step_some_iff {f : σ → Option (σ₁ × List ω)} {s : σ} {s' : σ₁} {os : List ω} :
    step f s (some s') os ↔ f s = some (s', os) := by
  simp [step]

theorem step_none_iff {f : σ → Option (σ₁ × List ω)} {s : σ} {os : List ω} :
    step f s none os ↔ os = [] ∨ ∃ s', f s = some (s', os) := by
  simp [step]

/-- A silent step in front of another step is a part of it. -/
theorem seq_step {f : σ → Option σ₁} {g : σ₁ → Option (σ₂ × List ω)} {s : σ} {r : Option σ₂}
    {os : List ω} : seq (silent f) (step g) s r os ↔ step (fun s => (f s).bind g) s r os := by
  cases r with
  | none =>
    simp only [seq, step_none_iff, step_some_iff, Option.map_eq_some_iff, Prod.mk.injEq,
      Option.bind_eq_some_iff, true_and]
    constructor
    · rintro ((rfl | ⟨s₁, a, -, -, rfl⟩) | ⟨s₁, os₁, os₂, ⟨a, ha, rfl, rfl⟩, rfl | ⟨s', hs'⟩, rfl⟩)
      · exact .inl rfl
      · exact .inl rfl
      · exact .inl rfl
      · exact .inr ⟨s', a, ha, hs'⟩
    · rintro (rfl | ⟨s', a, ha, hs'⟩)
      · exact .inl (.inl rfl)
      · exact .inr ⟨a, [], os, ⟨a, ha, rfl, rfl⟩, .inr ⟨s', hs'⟩, rfl⟩
  | some s' =>
    simp only [seq, step_some_iff, Option.map_eq_some_iff, Prod.mk.injEq, Option.bind_eq_some_iff,
      reduceCtorEq, false_and, false_or]
    constructor
    · rintro ⟨s₁, os₁, os₂, ⟨a, ha, rfl, rfl⟩, hg, rfl⟩
      exact ⟨a, ha, hg⟩
    · rintro ⟨a, ha, hg⟩
      exact ⟨a, [], os, ⟨a, ha, rfl, rfl⟩, hg, rfl⟩

/-- Nothing is left to be done behind a step. -/
theorem step_seq_skip {f : σ → Option (σ₁ × List ω)} {s : σ} {r : Option σ₁} {os : List ω} :
    seq (step f) (silent some) s r os ↔ step f s r os := by
  cases r with
  | none =>
    simp only [seq, step_none_iff, step_some_iff, Option.map_some, Option.some.injEq, Prod.mk.injEq,
      true_and]
    constructor
    · rintro (h | ⟨s₁, os₁, os₂, hf, rfl | ⟨s', -, rfl⟩, rfl⟩)
      · exact h
      · exact .inr ⟨s₁, by rw [hf, List.append_nil]⟩
      · exact .inr ⟨s₁, by rw [hf, List.append_nil]⟩
    · exact .inl
  | some s' =>
    simp only [seq, step_some_iff, Option.map_some, Option.some.injEq, Prod.mk.injEq, reduceCtorEq,
      false_and, false_or]
    constructor
    · rintro ⟨s₁, os₁, os₂, hf, ⟨rfl, rfl⟩, rfl⟩
      rw [hf, List.append_nil]
    · intro hf
      exact ⟨s', os, [], hf, ⟨rfl, rfl⟩, (List.append_nil os).symm⟩

end Behaviour

section
variable {ι κ δ σ σ₁ σ₂ ω : Type}

/-- Code does what a behaviour allows, and all of it: states are related to the data before and
behind the code, and what is observed of the data grows by the output. -/
structure Realises (L : Lang ι κ δ) (obs : δ → List ω) (R : σ → δ → Prop) (R' : σ₁ → δ → Prop)
    (k : Code ι κ) (B : Behaviour σ σ₁ ω) : Prop where
  exits : ∀ ⦃s d x d'⦄, R s d → Exec L k d x d' → x.Done
  ends : ∀ ⦃s d d'⦄, R s d → Exec L k d .normal d' →
    ∃ s' os, B s (some s') os ∧ R' s' d' ∧ obs d' = obs d ++ os
  runs : ∀ ⦃s d d'⦄, R s d → Exec L k d .running d' → ∃ os, B s none os ∧ obs d' = obs d ++ os
  reaches : ∀ ⦃s d s' os⦄, R s d → B s (some s') os →
    ∃ d', Exec L k d .normal d' ∧ R' s' d' ∧ obs d' = obs d ++ os
  passes : ∀ ⦃s d os⦄, R s d → B s none os → ∃ d', Exec L k d .running d' ∧ obs d' = obs d ++ os

variable {L : Lang ι κ δ} {obs : δ → List ω} {R : σ → δ → Prop} {R₁ : σ₁ → δ → Prop}
  {R₂ : σ₂ → δ → Prop} {k k' : Code ι κ}

namespace Realises

theorem congr {A B : Behaviour σ σ₁ ω} (h : Realises L obs R R₁ k A)
    (hAB : ∀ s r os, A s r os ↔ B s r os) : Realises L obs R R₁ k B := by
  obtain rfl : A = B := by
    funext s r os
    exact propext (hAB s r os)
  exact h

theorem seq {A : Behaviour σ σ₁ ω} {B : Behaviour σ₁ σ₂ ω} (hk : Realises L obs R R₁ k A)
    (hk' : Realises L obs R₁ R₂ k' B) : Realises L obs R R₂ (.seq k k') (A.seq B) where
  exits := by
    intro s d x d' hd he
    cases he with
    | seq h h' =>
      obtain ⟨s₁, os₁, -, hd₁, -⟩ := hk.ends hd h
      exact hk'.exits hd₁ h'
    | seqExit h _ => exact hk.exits hd h
  ends := by
    intro s d d' hd he
    cases he with
    | seq h h' =>
      obtain ⟨s₁, os₁, hA, hd₁, hos₁⟩ := hk.ends hd h
      obtain ⟨s₂, os₂, hB, hd₂, hos₂⟩ := hk'.ends hd₁ h'
      refine ⟨s₂, os₁ ++ os₂, .inr ⟨s₁, os₁, os₂, hA, hB, rfl⟩, hd₂, ?_⟩
      rw [hos₂, hos₁, List.append_assoc]
    | seqExit _ hne => exact absurd rfl hne
  runs := by
    intro s d d' hd he
    cases he with
    | seq h h' =>
      obtain ⟨s₁, os₁, hA, hd₁, hos₁⟩ := hk.ends hd h
      obtain ⟨os₂, hB, hos₂⟩ := hk'.runs hd₁ h'
      refine ⟨os₁ ++ os₂, .inr ⟨s₁, os₁, os₂, hA, hB, rfl⟩, ?_⟩
      rw [hos₂, hos₁, List.append_assoc]
    | seqExit h _ =>
      obtain ⟨os, hA, hos⟩ := hk.runs hd h
      exact ⟨os, .inl ⟨rfl, hA⟩, hos⟩
  reaches := by
    rintro s d s' os hd (⟨hnone, -⟩ | ⟨s₁, os₁, os₂, hA, hB, rfl⟩)
    · exact absurd hnone (by simp)
    · obtain ⟨d₁, h, hd₁, hos₁⟩ := hk.reaches hd hA
      obtain ⟨d₂, h', hd₂, hos₂⟩ := hk'.reaches hd₁ hB
      refine ⟨d₂, .seq h h', hd₂, ?_⟩
      rw [hos₂, hos₁, List.append_assoc]
  passes := by
    rintro s d os hd (⟨-, hA⟩ | ⟨s₁, os₁, os₂, hA, hB, rfl⟩)
    · obtain ⟨d', h, hos⟩ := hk.passes hd hA
      exact ⟨d', .seqExit h (by simp), hos⟩
    · obtain ⟨d₁, h, hd₁, hos₁⟩ := hk.reaches hd hA
      obtain ⟨d₂, h', hos₂⟩ := hk'.passes hd₁ hB
      refine ⟨d₂, .seq h h', ?_⟩
      rw [hos₂, hos₁, List.append_assoc]

/-- Code that does nothing. -/
theorem skip {f : σ → σ₁} (h : ∀ s d, R s d → R₁ (f s) d) :
    Realises L obs R R₁ .skip (Behaviour.silent fun s => some (f s)) where
  exits := by
    intro s d x d' _ he
    cases he with
    | skip hdone => exact hdone
  ends := by
    intro s d d' hd he
    cases he
    exact ⟨f s, [], Behaviour.step_some_iff.mpr rfl, h s d hd, (List.append_nil _).symm⟩
  runs := by
    intro s d d' _ he
    cases he
    exact ⟨[], Behaviour.step_none_iff.mpr (.inl rfl), (List.append_nil _).symm⟩
  reaches := by
    intro s d s' os hd hB
    obtain ⟨rfl, rfl⟩ := Prod.mk.inj (Option.some.inj (Behaviour.step_some_iff.mp hB))
    exact ⟨d, .skip (.inl rfl), h s d hd, (List.append_nil _).symm⟩
  passes := by
    intro s d os _ hB
    have hnil : os = [] := by
      rcases Behaviour.step_none_iff.mp hB with rfl | ⟨s', hs'⟩
      · rfl
      · exact (Prod.mk.inj (Option.some.inj hs')).2.symm
    exact ⟨d, .skip (.inr rfl), by rw [hnil, List.append_nil]⟩

/-- Code that changes nothing may stand in front. -/
theorem after {A : Behaviour σ σ₁ ω} {k₀ : Code ι κ}
    (hstays : ∀ {d x d'}, Exec L k₀ d x d' → x.Done ∧ d' = d) (hends : ∀ d, Exec L k₀ d .normal d)
    (h : Realises L obs R R₁ k A) : Realises L obs R R₁ (.seq k₀ k) A where
  exits := by
    intro s d x d' hd he
    cases he with
    | seq h₀ h' =>
      obtain rfl := (hstays h₀).2
      exact h.exits hd h'
    | seqExit h₀ _ => exact (hstays h₀).1
  ends := by
    intro s d d' hd he
    obtain ⟨d₁, h₀, h'⟩ := exec_seq_iff.mp he
    obtain rfl := (hstays h₀).2
    exact h.ends hd h'
  runs := by
    intro s d d' hd he
    cases he with
    | seq h₀ h' =>
      obtain rfl := (hstays h₀).2
      exact h.runs hd h'
    | seqExit h₀ _ =>
      obtain rfl := (hstays h₀).2
      exact h.runs hd (Exec.start k _)
  reaches := by
    intro s d s' os hd hA
    obtain ⟨d', h', hd', hos⟩ := h.reaches hd hA
    exact ⟨d', .seq (hends d) h', hd', hos⟩
  passes := by
    intro s d os hd hA
    obtain ⟨d', h', hos⟩ := h.passes hd hA
    exact ⟨d', .seq (hends d) h', hos⟩

theorem afterSkip {A : Behaviour σ σ₁ ω} (h : Realises L obs R R₁ k A) :
    Realises L obs R R₁ (.seq .skip k) A := by
  refine h.after ?_ fun d => .skip (.inl rfl)
  intro d x d' he
  cases he with
  | skip hdone => exact ⟨hdone, rfl⟩

/-- An instruction. -/
theorem instr {i : ι} {f : σ → Option (σ₁ × List ω)}
    (hsome : ∀ s d s' os, R s d → f s = some (s', os) →
      ∃ d', L.exec i d = some d' ∧ R₁ s' d' ∧ obs d' = obs d ++ os)
    (hnone : ∀ s d, R s d → f s = none → L.exec i d = none) :
    Realises L obs R R₁ (.instr i) (Behaviour.step f) := by
  have hexec : ∀ {s d d'}, R s d → L.exec i d = some d' →
      ∃ s' os, f s = some (s', os) ∧ R₁ s' d' ∧ obs d' = obs d ++ os := by
    intro s d d' hd he
    cases hf : f s with
    | none =>
      rw [hnone s d hd hf] at he
      exact absurd he (by simp)
    | some v =>
      obtain ⟨d'', he', hv⟩ := hsome s d v.1 v.2 hd hf
      rw [he] at he'
      obtain rfl := Option.some.inj he'
      exact ⟨v.1, v.2, rfl, hv⟩
  refine ⟨?_, ?_, ?_, ?_, ?_⟩
  · intro s d x d' _ he
    cases he with
    | wait => exact .inr rfl
    | instr _ hdone => exact hdone
  · intro s d d' hd he
    cases he with
    | instr hi _ =>
      obtain ⟨s', os, hf, hd', hos⟩ := hexec hd hi
      exact ⟨s', os, Behaviour.step_some_iff.mpr hf, hd', hos⟩
  · intro s d d' hd he
    cases he with
    | wait => exact ⟨[], Behaviour.step_none_iff.mpr (.inl rfl), (List.append_nil _).symm⟩
    | instr hi _ =>
      obtain ⟨s', os, hf, -, hos⟩ := hexec hd hi
      exact ⟨os, Behaviour.step_none_iff.mpr (.inr ⟨s', hf⟩), hos⟩
  · intro s d s' os hd hB
    obtain ⟨d', he, hd', hos⟩ := hsome s d s' os hd (Behaviour.step_some_iff.mp hB)
    exact ⟨d', .instr he (.inl rfl), hd', hos⟩
  · intro s d os hd hB
    rcases Behaviour.step_none_iff.mp hB with rfl | ⟨s', hf⟩
    · exact ⟨d, .wait, (List.append_nil _).symm⟩
    · obtain ⟨d', he, -, hos⟩ := hsome s d s' os hd hf
      exact ⟨d', .instr he (.inr rfl), hos⟩

end Realises

/-- Code behind which a condition is tested. -/
structure Tests (L : Lang ι κ δ) (obs : δ → List ω) (R : σ → δ → Prop) (k : Code ι κ) (v : κ)
    (c : σ → Option (Bool × σ)) : Prop where
  exits : ∀ ⦃s d x d'⦄, R s d → Exec L k d x d' → x.Done
  quiet : ∀ ⦃s d d'⦄, R s d → Exec L k d .running d' → obs d' = obs d
  ends : ∀ ⦃s d d₁ b d₂⦄, R s d → Exec L k d .normal d₁ → L.test v d₁ = some (b, d₂) →
    ∃ s', c s = some (b, s') ∧ R s' d₂ ∧ obs d₂ = obs d
  reaches : ∀ ⦃s d b s'⦄, R s d → c s = some (b, s') →
    ∃ d₁ d₂, Exec L k d .normal d₁ ∧ L.test v d₁ = some (b, d₂) ∧ R s' d₂ ∧ obs d₂ = obs d

namespace Realises
variable {v : κ} {c : σ → Option (Bool × σ)} {p q e : Code ι κ}

theorem branch {A B : Behaviour σ σ₁ ω} (hc : Tests L obs R k v c) (hp : Realises L obs R R₁ p A)
    (hq : Realises L obs R R₁ q B) :
    Realises L obs R R₁ (.seq k (.cond v p q)) (Behaviour.branch c A B) := by
  have hpart : ∀ b : Bool, Realises L obs R R₁ (if b then p else q) (if b then A else B) := by
    intro b
    cases b with
    | true => exact hp
    | false => exact hq
  refine ⟨?_, ?_, ?_, ?_, ?_⟩
  · intro s d x d' hd he
    cases he with
    | seq h h' =>
      cases h' with
      | condWait => exact .inr rfl
      | cond ht hx =>
        obtain ⟨s₁, -, hd₁, -⟩ := hc.ends hd h ht
        exact (hpart _).exits hd₁ hx
    | seqExit h _ => exact hc.exits hd h
  · intro s d d' hd he
    obtain ⟨d₁, h, h'⟩ := exec_seq_iff.mp he
    obtain ⟨b, d₂, ht, hx⟩ := exec_cond_iff.mp h'
    obtain ⟨s₁, hs₁, hd₁, hos₁⟩ := hc.ends hd h ht
    obtain ⟨s', os, hB, hd', hos⟩ := (hpart b).ends hd₁ hx
    exact ⟨s', os, .inr ⟨b, s₁, hs₁, hB⟩, hd', by rw [hos, hos₁]⟩
  · intro s d d' hd he
    have hstay : ∀ d', obs d' = obs d → ∃ os, Behaviour.branch c A B s none os ∧ obs d' = obs d ++ os :=
      fun d' hobs => ⟨[], .inl ⟨rfl, rfl⟩, by rw [hobs, List.append_nil]⟩
    cases he with
    | seq h h' =>
      cases h' with
      | condWait => exact hstay _ (hc.quiet hd h.late)
      | @cond _ _ _ _ b d₂ _ _ ht hx =>
        obtain ⟨s₁, hs₁, hd₁, hos₁⟩ := hc.ends hd h ht
        obtain ⟨os, hB, hos⟩ := (hpart b).runs hd₁ hx
        exact ⟨os, .inr ⟨b, s₁, hs₁, hB⟩, by rw [hos, hos₁]⟩
    | seqExit h _ => exact hstay _ (hc.quiet hd h)
  · rintro s d s' os hd (⟨hnone, -⟩ | ⟨b, s₁, hs₁, hB⟩)
    · exact absurd hnone (by simp)
    · obtain ⟨d₁, d₂, h, ht, hd₂, hos₂⟩ := hc.reaches hd hs₁
      obtain ⟨d', hx, hd', hos⟩ := (hpart b).reaches hd₂ hB
      exact ⟨d', .seq h (.cond ht hx), hd', by rw [hos, hos₂]⟩
  · rintro s d os hd (⟨-, rfl⟩ | ⟨b, s₁, hs₁, hB⟩)
    · exact ⟨d, Exec.start _ d, (List.append_nil _).symm⟩
    · obtain ⟨d₁, d₂, h, ht, hd₂, hos₂⟩ := hc.reaches hd hs₁
      obtain ⟨d', hx, hos⟩ := (hpart b).passes hd₂ hB
      exact ⟨d', .seq h (.cond ht hx), by rw [hos, hos₂]⟩

/-- What an execution of a loop does. -/
theorem loop_exec {t : Code ι κ} {A E : Behaviour σ σ ω} (ht : Tests L obs R t v c)
    (hp : Realises L obs R R p A) (he : Realises L obs R R e E) {d d' : δ} {x : Exit}
    (h : Exec L (.forLoop t v p e) d x d') {s : σ} (hd : R s d) :
    (x = .normal ∧ ∃ s' os, Behaviour.loop c (A.seq E) s (some s') os ∧ R s' d' ∧ obs d' = obs d ++ os) ∨
      x = .running ∧ ∃ os, Behaviour.loop c (A.seq E) s none os ∧ obs d' = obs d ++ os := by
  have hbody : ∀ {s d d₁ d₂ y d₃}, R s d → Exec L t d .normal d₁ → L.test v d₁ = some (true, d₂) →
      Exec L p d₂ y d₃ → y ≠ .running → ∃ s₁ s₂ os, c s = some (true, s₁) ∧ A s₁ (some s₂) os ∧
        R s₂ d₃ ∧ obs d₃ = obs d ++ os := by
    intro s d d₁ d₂ y d₃ hd htest hv hx hne
    obtain ⟨s₁, hs₁, hd₁, hos₁⟩ := ht.ends hd htest hv
    obtain rfl := (hp.exits hd₁ hx).normal hne
    obtain ⟨s₂, os, hA, hd₂, hos⟩ := hp.ends hd₁ hx
    exact ⟨s₁, s₂, os, hs₁, hA, hd₂, by rw [hos, hos₁]⟩
  generalize hk : Code.forLoop t v p e = k at h
  induction h generalizing s with
  | forExit h hne _ =>
    obtain ⟨rfl, rfl, rfl, rfl⟩ := Code.forLoop.inj hk
    obtain rfl := (ht.exits hd h).resolve_left hne
    exact .inr ⟨rfl, [], .wait s, by rw [ht.quiet hd h, List.append_nil]⟩
  | forDone h hv hdone _ =>
    obtain ⟨rfl, rfl, rfl, rfl⟩ := Code.forLoop.inj hk
    obtain ⟨s', hs', hd', hos⟩ := ht.ends hd h hv
    rcases hdone with rfl | rfl
    · exact .inl ⟨rfl, s', [], .done hs', hd', by rw [hos, List.append_nil]⟩
    · exact .inr ⟨rfl, [], .wait s, by rw [hos, List.append_nil]⟩
  | forBreak h hv hx _ _ _ =>
    obtain ⟨rfl, rfl, rfl, rfl⟩ := Code.forLoop.inj hk
    obtain ⟨s₁, -, hd₁, -⟩ := ht.ends hd h hv
    exact absurd (hp.exits hd₁ hx) (by simp [Exit.Done])
  | forStop h hv hx _ _ =>
    obtain ⟨rfl, rfl, rfl, rfl⟩ := Code.forLoop.inj hk
    obtain ⟨s₁, hs₁, hd₁, hos₁⟩ := ht.ends hd h hv
    obtain ⟨os, hA, hos⟩ := hp.runs hd₁ hx
    exact .inr ⟨rfl, os, .within hs₁ (.inl ⟨rfl, hA⟩), by rw [hos, hos₁]⟩
  | forEvery h hv hx hy hev hne _ _ _ =>
    obtain ⟨rfl, rfl, rfl, rfl⟩ := Code.forLoop.inj hk
    obtain ⟨s₁, s₂, os, hs₁, hA, hd₂, hos⟩ := hbody hd h hv hx (ne_running_of hy)
    obtain rfl := (he.exits hd₂ hev).resolve_left hne
    obtain ⟨os', hE, hos'⟩ := he.runs hd₂ hev
    refine .inr ⟨rfl, os ++ os', .within hs₁ (.inr ⟨s₂, os, os', hA, hE, rfl⟩), ?_⟩
    rw [hos', hos, List.append_assoc]
  | @forNext t v p e d d₁ d₂ y d₃ d₄ x d₅ h hv hx hy hev _ _ _ _ ih =>
    obtain ⟨rfl, rfl, rfl, rfl⟩ := Code.forLoop.inj hk
    obtain ⟨s₁, s₂, os, hs₁, hA, hd₂, hos⟩ := hbody hd h hv hx (ne_running_of hy)
    obtain ⟨s₃, os', hE, hd₃, hos'⟩ := he.ends hd₂ hev
    have hround : A.seq E s₁ (some s₃) (os ++ os') := .inr ⟨s₂, os, os', hA, hE, rfl⟩
    have hobs : obs d₄ = obs d ++ (os ++ os') := by rw [hos', hos, List.append_assoc]
    rcases ih hd₃ rfl with ⟨rfl, s', os'', hloop, hd', hos''⟩ | ⟨rfl, os'', hloop, hos''⟩
    · exact .inl ⟨rfl, s', _, .next hs₁ hround hloop, hd', by rw [hos'', hobs, List.append_assoc]⟩
    · exact .inr ⟨rfl, _, .next hs₁ hround hloop, by rw [hos'', hobs, List.append_assoc]⟩
  | _ => exact absurd hk (by simp)

/-- An execution of a loop for what it may do. -/
theorem exec_loop {t : Code ι κ} {A E : Behaviour σ σ ω} (ht : Tests L obs R t v c)
    (hp : Realises L obs R R p A) (he : Realises L obs R R e E) {s : σ} {r : Option σ} {os : List ω}
    (h : Behaviour.loop c (A.seq E) s r os) {d : δ} (hd : R s d) :
    ∃ x d', Exec L (.forLoop t v p e) d x d' ∧ obs d' = obs d ++ os ∧
      (r = none → x = .running) ∧ ∀ s' ∈ r, x = .normal ∧ R s' d' := by
  induction h generalizing d with
  | wait s => exact ⟨.running, d, Exec.start _ d, (List.append_nil _).symm, fun _ => rfl, by simp⟩
  | done hc =>
    obtain ⟨d₁, d₂, h, hv, hd₂, hos⟩ := ht.reaches hd hc
    refine ⟨.normal, d₂, .forDone h hv (.inl rfl), by rw [hos, List.append_nil], by simp, ?_⟩
    intro s' hs'
    obtain rfl := Option.mem_some_iff.mp hs'
    exact ⟨rfl, hd₂⟩
  | within hc hround =>
    obtain ⟨d₁, d₂, h, hv, hd₂, hos⟩ := ht.reaches hd hc
    refine ⟨.running, ?_⟩
    rcases hround with ⟨-, hA⟩ | ⟨s₂, os₁, os₂, hA, hE, rfl⟩
    · obtain ⟨d', hx, hos'⟩ := hp.passes hd₂ hA
      exact ⟨d', .forStop h hv hx, by rw [hos', hos], fun _ => rfl, by simp⟩
    · obtain ⟨d₃, hx, hd₃, hos₃⟩ := hp.reaches hd₂ hA
      obtain ⟨d', hev, hos'⟩ := he.passes hd₃ hE
      refine ⟨d', .forEvery h hv hx (.inl rfl) hev (by simp), ?_, fun _ => rfl, by simp⟩
      rw [hos', hos₃, hos, List.append_assoc]
  | next hc hround _ ih =>
    obtain ⟨d₁, d₂, h, hv, hd₂, hos⟩ := ht.reaches hd hc
    rcases hround with ⟨hnone, -⟩ | ⟨s₂, os₁, os₂, hA, hE, rfl⟩
    · exact absurd hnone (by simp)
    · obtain ⟨d₃, hx, hd₃, hos₃⟩ := hp.reaches hd₂ hA
      obtain ⟨d₄, hev, hd₄, hos₄⟩ := he.reaches hd₃ hE
      obtain ⟨x, d', hloop, hos', hr⟩ := ih hd₄
      refine ⟨x, d', .forNext h hv hx (.inl rfl) hev hloop, ?_, hr⟩
      rw [hos', hos₄, hos₃, hos, List.append_assoc, List.append_assoc, List.append_assoc]

theorem loop {t : Code ι κ} {A E : Behaviour σ σ ω} (ht : Tests L obs R t v c)
    (hp : Realises L obs R R p A) (he : Realises L obs R R e E) :
    Realises L obs R R (.forLoop t v p e) (Behaviour.loop c (A.seq E)) where
  exits := by
    intro s d x d' hd h
    rcases loop_exec ht hp he h hd with ⟨rfl, -⟩ | ⟨rfl, -⟩
    · exact .inl rfl
    · exact .inr rfl
  ends := by
    intro s d d' hd h
    rcases loop_exec ht hp he h hd with ⟨-, hends⟩ | ⟨hx, -⟩
    · exact hends
    · exact absurd hx (by simp)
  runs := by
    intro s d d' hd h
    rcases loop_exec ht hp he h hd with ⟨hx, -⟩ | ⟨-, hruns⟩
    · exact absurd hx (by simp)
    · exact hruns
  reaches := by
    intro s d s' os hd h
    obtain ⟨x, d', hx, hos, -, hr⟩ := exec_loop ht hp he h hd
    obtain ⟨rfl, hd'⟩ := hr s' rfl
    exact ⟨d', hx, hd', hos⟩
  passes := by
    intro s d os hd h
    obtain ⟨x, d', hx, hos, hr, -⟩ := exec_loop ht hp he h hd
    obtain rfl := hr rfl
    exact ⟨d', hx, hos⟩

end Realises

end

variable {ι κ δ : Type}

/-- The machine comes to the given data. -/
def Stops (L : Lang ι κ δ) (F : Blocks ι) (s : State δ) (d : δ) : Prop :=
  ∃ n s₁, L.Run F n s s₁ ∧ s₁.data = d

section
variable {L : Lang ι κ δ} {F : Blocks ι} {lp : Option Targets} {p q : Point} {k : Code ι κ}
  {s s₁ : State δ} {d d' : δ}

theorem stops_here (hd : s.data = d) : Stops L F s d := ⟨0, s, .zero s, hd⟩

theorem Stops.trans {n : ℕ} (h : L.Run F n s s₁) (hk : Stops L F s₁ d) : Stops L F s d := by
  obtain ⟨m, s₂, hrun, hdata⟩ := hk
  exact ⟨n+m, s₂, h.trans hrun, hdata⟩

theorem Arrives.stops {x : Exit} (h : Arrives L F lp q s x d) : Stops L F s d := by
  obtain ⟨n, s₁, hrun, hdata, -⟩ := h
  exact ⟨n, s₁, hrun, hdata⟩

theorem Arrives.bindStops (h : Arrives L F lp q s .normal d)
    (hk : ∀ s₁ : State δ, s₁.At q → s₁.data = d → Stops L F s₁ d') : Stops L F s d' := by
  obtain ⟨n, s₁, hrun, hdata, hs₁⟩ := h
  exact (hk s₁ hs₁ hdata).trans hrun

theorem stops_condBr {i : ι} {v : κ} {t f : ℕ} {c : Bool} {d₁ : δ} (hs : s.At p)
    (hi : F.get p = some i) (hv : L.view i = .condBr v t f) (ht : L.test v s.data = some (c, d₁))
    (hk : ∀ s₁ : State δ, s₁.At ⟨if c then t else f, 0⟩ → s₁.data = d₁ → Stops L F s₁ d) :
    Stops L F s d := by
  refine (hk ⟨if c then t else f, 0, s.block, d₁⟩ ⟨rfl, rfl⟩ rfl).trans (.succ ?_ (.zero _))
  rw [Lang.step_condBr (hs.get hi) hv, ht]
  rfl

/-- The test of a loop. -/
theorem stops_test {i j : ι} {v : κ} {test body fin : ℕ} {t : Code ι κ} {b : Bool} {d₁ d₂ : δ}
    (hs : s.At p) (hd : s.data = d) (hi : F.get p = some i) (hv : L.view i = .br test)
    (ht : Layout L F none ⟨test, 0⟩ t q) (hj : F.get q = some j)
    (hv' : L.view j = .condBr v body fin) (he : Exec L t d .normal d₁)
    (htest : L.test v d₁ = some (b, d₂)) (hk : ∀ s₁ : State δ,
      s₁.At ⟨if b then body else fin, 0⟩ → s₁.data = d₂ → Stops L F s₁ d') : Stops L F s d' := by
  have hbranch : L.Run F 1 s ⟨test, 0, s.block, s.data⟩ :=
    .succ (Lang.step_br (hs.get hi) hv) (.zero _)
  have harrives := he.arrives (s := ⟨test, 0, s.block, s.data⟩) ht (by simp) ⟨rfl, rfl⟩ hd
  refine Stops.trans hbranch (harrives.bindStops fun s₁ hs₁ hd₁ => ?_)
  exact stops_condBr hs₁ hj hv' (by rw [hd₁]; exact htest) hk

/-- The machine comes to all the data of an execution that is still running. -/
theorem Exec.stops {x : Exit} (h : Exec L k d x d') (hlayout : Layout L F lp p k q) (hx : x = .running)
    (hs : s.At p) (hd : s.data = d) : Stops L F s d' := by
  induction h generalizing lp p q s with
  | skip _ => exact stops_here hd
  | wait => exact stops_here hd
  | instr hexec hdone => exact ((Exec.instr hexec (.inl rfl)).arrives hlayout (by simp) hs hd).stops
  | seq hk _ _ ih =>
    cases hlayout with
    | seq hl hl' =>
      exact (hk.arrives hl (by simp) hs hd).bindStops fun s₁ hs₁ hd₁ => ih hl' hx hs₁ hd₁
  | seqExit _ _ ih =>
    cases hlayout with
    | seq hl _ => exact ih hl hx hs hd
  | condWait => exact stops_here hd
  | @cond v k k' d c d₁ x d₂ htest _ ih =>
    cases hlayout with
    | cond hi hv hl _ _ hl' _ _ =>
      subst hd
      refine stops_condBr hs hi hv htest fun s₁ hs₁ hd₁ => ?_
      cases c with
      | true => exact ih hl hx hs₁ hd₁
      | false => exact ih hl' hx hs₁ hd₁
  | shortWait => exact stops_here hd
  | shortLeave htest =>
    cases hlayout with
    | short hi hv _ _ _ _ _ _ _ =>
      subst hd
      exact stops_condBr hs hi hv htest fun s₁ _ hd₁ => stops_here hd₁
  | shortLeft htest hexec _ =>
    exact ((Exec.shortLeft htest hexec (.inl rfl)).arrives hlayout (by simp) hs hd).stops
  | @shortExit b v k l r d d₁ x d₂ htest _ _ ih =>
    cases hlayout with
    | short hi hv hl _ _ _ _ _ _ =>
      subst hd
      refine stops_condBr hs hi hv htest fun s₁ hs₁ hd₁ => ?_
      rw [shortTarget_same] at hs₁
      exact ih hl hx hs₁ hd₁
  | shortRight htest hk hexec _ _ =>
    exact ((Exec.shortRight htest hk hexec (.inl rfl)).arrives hlayout (by simp) hs hd).stops
  | loopExit _ _ ih =>
    cases hlayout with
    | loop hi hv ht _ _ _ _ _ =>
      have hbranch := Lang.Run.succ (Lang.step_br (hs.get hi) hv) (.zero _)
      exact Stops.trans hbranch (ih ht hx ⟨rfl, rfl⟩ hd)
  | loopDone ht hv _ _ => exact ((Exec.loopDone ht hv (.inl rfl)).arrives hlayout (by simp) hs hd).stops
  | loopLeave ht htest _ _ _ ih =>
    cases hlayout with
    | loop hi hv hl hj hv' hl' _ _ =>
      exact stops_test hs hd hi hv hl hj hv' ht htest fun s₁ hs₁ hd₁ => ih hl' hx hs₁ hd₁
  | loopNext ht htest hk _ _ _ ih =>
    cases hlayout with
    | loop hi hv hl hj hv' hl' hm hv'' =>
      refine stops_test hs hd hi hv hl hj hv' ht htest fun s₁ hs₁ hd₁ => ?_
      refine (hk.arrives hl' (by simp) hs₁ hd₁).bindStops fun s₂ hs₂ hd₂ => ?_
      exact ih (.loop hm hv'' hl hj hv' hl' hm hv'') hx hs₂ hd₂
  | forExit _ _ ih =>
    cases hlayout with
    | forLoop hi hv ht _ _ _ _ _ _ _ _ =>
      have hbranch := Lang.Run.succ (Lang.step_br (hs.get hi) hv) (.zero _)
      exact Stops.trans hbranch (ih ht hx ⟨rfl, rfl⟩ hd)
  | forDone ht hv _ _ => exact ((Exec.forDone ht hv (.inl rfl)).arrives hlayout (by simp) hs hd).stops
  | forBreak ht hv hk _ _ _ =>
    exact ((Exec.forBreak ht hv hk (.inl rfl)).arrives hlayout (by simp) hs hd).stops
  | forStop ht htest _ _ ih =>
    cases hlayout with
    | forLoop hi hv hl hj hv' hl' _ _ _ _ _ =>
      exact stops_test hs hd hi hv hl hj hv' ht htest fun s₁ hs₁ hd₁ => ih hl' rfl hs₁ hd₁
  | forEvery ht htest hk hy _ _ _ _ ih =>
    cases hlayout with
    | forLoop hi hv hl hj hv' hl' hm hv'' he _ _ =>
      refine stops_test hs hd hi hv hl hj hv' ht htest fun s₁ hs₁ hd₁ => ?_
      obtain ⟨n, s₂, hrun, hd₂, hs₂⟩ :=
        arrives_next (hk.arrives hl' (ne_running_of hy) hs₁ hd₁) hy hm hv''
      exact Stops.trans hrun (ih he hx hs₂ hd₂)
  | forNext ht htest hk hy he _ _ _ _ ih =>
    cases hlayout with
    | forLoop hi hv hl hj hv' hl' hm hv'' hle hn hv''' =>
      refine stops_test hs hd hi hv hl hj hv' ht htest fun s₁ hs₁ hd₁ => ?_
      obtain ⟨n, s₂, hrun, hd₂, hs₂⟩ :=
        arrives_next (hk.arrives hl' (ne_running_of hy) hs₁ hd₁) hy hm hv''
      refine Stops.trans hrun ((he.arrives hle (by simp) hs₂ hd₂).bindStops fun s₃ hs₃ hd₃ => ?_)
      have hloop : Layout L F lp _ _ _ := .forLoop hn hv''' hl hj hv' hl' hm hv'' hle hn hv'''
      exact ih hloop hx hs₃ hd₃
  | jumpWait => exact stops_here hd
  | @jump _ j _ _ _ _ => exact absurd hx (by cases j <;> simp [jumpExit])

end

end StructuredCode
